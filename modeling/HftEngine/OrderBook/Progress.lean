import HftEngine.OrderBook.Invariants

/-!
# When the matching loop ends

A fill is the smaller of what is left of the aggressor and the level's 64-bit
total *cast to 32 bits*.  A total of `2^32` or more is therefore taken for
less than it is: the loop takes its low 32 bits and is then left with a
multiple of `2^32`, against which every further fill is 0.

* `sweep_stuck` / `sweep_diverges` — at such a level the loop reports fills of
  0, for ever if the level is not empty;
* `sweep_progress_iff` — the sweep ends having reported no fill of 0 exactly
  when it never gets that far (`Passable`, by recursion on the queue);
* `passable_iff` — the same as a bound on the quantity (`ClearPath`);
* `limit_order_progress_iff` — the same of `add_order`, in every book a run
  can reach.
-/

namespace HftEngine

open Lib

/-- No match result reports a quantity of 0. -/
def AllPositive (fills : List MatchResult) : Prop := ∀ f ∈ fills, 0 < f.quantity

theorem allPositive_nil : AllPositive [] := fun _ hf => absurd hf (by simp)

/-- The sweep from `s` ends, having reported no fill of 0. -/
def Progress (beyond : Int64 → Bool) (s : Sweep) : Prop :=
  ∃ fuel r, loop (sweepStep beyond) fuel s = some r ∧ AllPositive r.fills

section Sweeps

variable {beyond : Int64 → Bool} {s s' : Sweep}

theorem progress_exit (h : sweepStep beyond s = none) (hfills : AllPositive s.fills) :
    Progress beyond s :=
  ⟨1, s, loop_exit h 0, hfills⟩

theorem progress_next (h : sweepStep beyond s = some s') :
    Progress beyond s ↔ Progress beyond s' := by
  constructor
  · rintro ⟨fuel, r, hr, hpos⟩
    obtain ⟨fuel', hr'⟩ := (loop_returns_next h).mp ⟨fuel, hr⟩
    exact ⟨fuel', r, hr', hpos⟩
  · rintro ⟨fuel, r, hr, hpos⟩
    obtain ⟨fuel', hr'⟩ := (loop_returns_next h).mpr ⟨fuel, hr⟩
    exact ⟨fuel', r, hr', hpos⟩

/-- A reported fill stays reported. -/
theorem Progress.fills_positive (h : Progress beyond s) : AllPositive s.fills := by
  obtain ⟨fuel, r, hr, hpos⟩ := h
  intro f hf
  exact hpos f ((swept_loop hr).1.fills.subset hf)

theorem allPositive_concat {fills : List MatchResult} {p : Int64} {q : UInt32} :
    AllPositive (fills ++ [⟨0, 0, p, q⟩]) ↔ AllPositive fills ∧ q ≠ 0 := by
  simp only [AllPositive, List.mem_append, List.mem_singleton, or_imp, forall_and, forall_eq,
    UInt32.pos_iff_ne_zero]

/-- The step taken at a level within the limit. -/
theorem sweepStep_cons {q : UInt32} {x : PriceLevel} (rest : List PriceLevel)
    (fills : List MatchResult) (hq : q ≠ 0) (hx : beyond x.priceTicks = false) :
    sweepStep beyond ⟨q, x :: rest, fills⟩ =
      some ⟨q - fillQty q x,
        if (x.fill (fillQty q x)).totalQuantity = 0 then rest else x.fill (fillQty q x) :: rest,
        fills ++ [⟨0, 0, x.priceTicks, fillQty q x⟩]⟩ := by
  have hpos : q > 0 := UInt32.pos_iff_ne_zero.mpr hq
  simp [sweepStep, hpos, hx]

theorem fillQty_eq_zero {q : UInt32} {x : PriceLevel}
    (hx : x.totalQuantity.toNat % 2 ^ 32 = 0) : fillQty q x = 0 := by
  apply UInt32.toNat_inj.mp
  rw [toNat_fillQty, hx, Nat.min_zero]
  rfl

/-- At a level whose total is a multiple of `2^32` the sweep reports a fill of
0. -/
theorem sweep_stuck {q : UInt32} {x : PriceLevel} {rest : List PriceLevel}
    {fills : List MatchResult} (hq : q ≠ 0) (hx : beyond x.priceTicks = false)
    (hlow : x.totalQuantity.toNat % 2 ^ 32 = 0) :
    ¬ Progress beyond ⟨q, x :: rest, fills⟩ := by
  intro h
  rw [progress_next (sweepStep_cons rest fills hq hx)] at h
  exact (allPositive_concat.mp h.fills_positive).2 (fillQty_eq_zero hlow)

/-- If that total is not 0, the level stays and the sweep never ends. -/
theorem sweep_diverges {q : UInt32} {x : PriceLevel} {rest : List PriceLevel}
    {fills : List MatchResult} (hq : q ≠ 0) (hx : beyond x.priceTicks = false)
    (hlow : x.totalQuantity.toNat % 2 ^ 32 = 0) (hne : x.totalQuantity ≠ 0) (fuel : Nat) :
    loop (sweepStep beyond) fuel ⟨q, x :: rest, fills⟩ = none := by
  apply loop_diverges fun s => ∃ fills, s = ⟨q, x :: rest, fills⟩
  · rintro s ⟨fills, rfl⟩
    -- a fill of 0 changes neither the aggressor nor the level
    have hfill : x.fill 0 = x := by simp [PriceLevel.fill]
    have hstep := sweepStep_cons rest fills hq hx
    rw [fillQty_eq_zero hlow, hfill, if_neg hne, UInt32.sub_zero] at hstep
    exact ⟨_, hstep, _, rfl⟩
  · exact ⟨fills, rfl⟩

/-- The quantity `q` gets through the queue: level by level, it is used up, or
stopped by the limit, or takes the whole of a level that fits 32 bits. -/
def Passable (beyond : Int64 → Bool) : Nat → List PriceLevel → Prop
  | _, [] => True
  | q, x :: rest =>
    q = 0 ∨ beyond x.priceTicks = true ∨
      (x.totalQuantity.toNat % 2 ^ 32 ≠ 0 ∧
        (q ≤ x.totalQuantity.toNat % 2 ^ 32 ∨
          (x.totalQuantity.toNat < 2 ^ 32 ∧
            Passable beyond (q - x.totalQuantity.toNat) rest)))

/-- What one fill leaves: the aggressor is used up, or the level is, or a
positive multiple of `2^32` is left of the level and something of the
aggressor. -/
theorem fill_cases (q : UInt32) (x : PriceLevel) :
    (q.toNat ≤ x.totalQuantity.toNat % 2 ^ 32 ∧ q - fillQty q x = 0) ∨
    (x.totalQuantity.toNat % 2 ^ 32 < q.toNat ∧ x.totalQuantity.toNat < 2 ^ 32 ∧
      (x.fill (fillQty q x)).totalQuantity = 0 ∧
      (q - fillQty q x).toNat = q.toNat - x.totalQuantity.toNat) ∨
    (x.totalQuantity.toNat % 2 ^ 32 < q.toNat ∧ 2 ^ 32 ≤ x.totalQuantity.toNat ∧
      q - fillQty q x ≠ 0 ∧ (x.fill (fillQty q x)).totalQuantity ≠ 0 ∧
      (x.fill (fillQty q x)).totalQuantity.toNat % 2 ^ 32 = 0) := by
  have hsub := toNat_sub_fillQty q x
  have hfill := toNat_fill_fillQty q x
  have hqty := toNat_fillQty q x
  by_cases hle : q.toNat ≤ x.totalQuantity.toNat % 2 ^ 32
  · refine .inl ⟨hle, UInt32.toNat_inj.mp ?_⟩
    rw [Nat.min_eq_left hle] at hqty
    rw [UInt32.toNat_zero]
    omega
  · rw [Nat.min_eq_right (by omega)] at hqty
    by_cases hfits : x.totalQuantity.toNat < 2 ^ 32
    · rw [Nat.mod_eq_of_lt hfits] at hqty
      refine .inr (.inl ⟨by omega, hfits, UInt64.toNat_inj.mp ?_, by omega⟩)
      rw [UInt64.toNat_zero]
      omega
    · -- the fill took the low 32 bits of the total
      have hsplit := Nat.mod_add_div x.totalQuantity.toNat (2 ^ 32)
      have hhigh : (x.fill (fillQty q x)).totalQuantity.toNat =
          2 ^ 32 * (x.totalQuantity.toNat / 2 ^ 32) := by omega
      refine .inr (.inr ⟨by omega, by omega, ?_, ?_, ?_⟩)
      · intro hz
        rw [hz, UInt32.toNat_zero] at hsub
        omega
      · intro hz
        rw [hz, UInt64.toNat_zero] at hfill
        have hlt := Nat.mod_lt x.totalQuantity.toNat (Nat.two_pow_pos 32)
        omega
      · rw [hhigh]
        exact Nat.mul_mod_right _ _

theorem fillQty_ne_zero {q : UInt32} {x : PriceLevel} (hq : q ≠ 0)
    (hlow : x.totalQuantity.toNat % 2 ^ 32 ≠ 0) : fillQty q x ≠ 0 := by
  intro hz
  have hqty := toNat_fillQty q x
  have hq' : q.toNat ≠ 0 := fun h => hq (UInt32.toNat_inj.mp h)
  rw [hz, UInt32.toNat_zero] at hqty
  omega

/-- Exactly when a sweep ends having reported no fill of 0. -/
theorem sweep_progress_iff (queue : List PriceLevel) (q : UInt32) {fills : List MatchResult}
    (hfills : AllPositive fills) :
    Progress beyond ⟨q, queue, fills⟩ ↔ Passable beyond q.toNat queue := by
  -- along the queue; at its head, by what the fill leaves of the two totals
  induction queue generalizing q fills with
  | nil =>
    refine ⟨fun _ => trivial, fun _ => progress_exit ?_ hfills⟩
    simp [sweepStep]
  | cons x rest ih =>
    by_cases hq : q = 0
    · subst hq
      refine ⟨fun _ => .inl rfl, fun _ => progress_exit ?_ hfills⟩
      simp [sweepStep]
    have hq' : q.toNat ≠ 0 := fun hz => hq (UInt32.toNat_inj.mp hz)
    cases hx : beyond x.priceTicks with
    | true =>
      refine ⟨fun _ => .inr (.inl hx), fun _ => progress_exit ?_ hfills⟩
      simp [sweepStep, hx]
    | false =>
      by_cases hlow : x.totalQuantity.toNat % 2 ^ 32 = 0
      · -- nothing can be taken from the level
        simp only [iff_false_intro (sweep_stuck hq hx hlow), Passable, false_iff, hx, hlow]
        simp [hq']
      · have hfills' := (allPositive_concat (p := x.priceTicks)).mpr
          ⟨hfills, fillQty_ne_zero hq hlow⟩
        rw [progress_next (sweepStep_cons rest fills hq hx)]
        simp only [Passable, hx, hq', false_or, Bool.false_eq_true, ne_eq, hlow,
          not_false_eq_true, true_and]
        rcases fill_cases q x with ⟨hle, hdone⟩ | ⟨hgt, hfits, hgone, hleft⟩ |
          ⟨hgt, hbig, hleft, hstays, hrest⟩
        · refine ⟨fun _ => .inl hle, fun _ => progress_exit ?_ hfills'⟩
          simp [sweepStep, hdone]
        · rw [if_pos hgone, ih _ hfills', hleft]
          exact ⟨fun h => .inr ⟨hfits, h⟩, fun h => (h.resolve_left (by omega)).2⟩
        · rw [if_neg hstays]
          refine iff_of_false (sweep_stuck hleft hx hrest) ?_
          intro h
          rcases h with hle | ⟨hfits, _⟩
          · omega
          · omega

/-! ## The bound on the quantity -/

/-- Every level within the limit whose total is 0 or does not fit 32 bits is
out of reach of the quantity `q`: the levels ahead of it and the low 32 bits
of its own total are enough for `q`. -/
def ClearPath (beyond : Int64 → Bool) (q : Nat) (queue : List PriceLevel) : Prop :=
  ∀ ahead x behind, queue = ahead ++ x :: behind → beyond x.priceTicks = false →
    x.totalQuantity.toNat = 0 ∨ 2 ^ 32 ≤ x.totalQuantity.toNat →
    q ≤ (ahead.map (·.totalQuantity.toNat)).sum + x.totalQuantity.toNat % 2 ^ 32

/-- A queue of levels that are not empty and fit 32 bits is no obstacle. -/
theorem clearPath_of_small {queue : List PriceLevel} (q : Nat)
    (h : ∀ x ∈ queue, x.totalQuantity ≠ 0 ∧ x.totalQuantity.toNat < 2 ^ 32) :
    ClearPath beyond q queue := by
  rintro ahead x behind rfl _ (hzero | hbig)
  · exact absurd (UInt64.toNat_inj.mp hzero) (h x (by simp)).1
  · exact absurd hbig (Nat.not_le.mpr (h x (by simp)).2)

/-- The condition level by level: on the head, and on the rest for what the
head leaves of the quantity. -/
theorem clearPath_cons {q : Nat} {x : PriceLevel} {rest : List PriceLevel} :
    ClearPath beyond q (x :: rest) ↔
      (beyond x.priceTicks = false →
        x.totalQuantity.toNat = 0 ∨ 2 ^ 32 ≤ x.totalQuantity.toNat →
        q ≤ x.totalQuantity.toNat % 2 ^ 32) ∧
      ClearPath beyond (q - x.totalQuantity.toNat) rest := by
  constructor
  · intro hclear
    refine ⟨fun hx hbig => ?_, fun ahead y behind hsplit hy hbig => ?_⟩
    · have hle := hclear [] x rest rfl hx hbig
      simpa only [List.map_nil, List.sum_nil, Nat.zero_add] using hle
    · have hle := hclear (x :: ahead) y behind (by rw [hsplit]; rfl) hy hbig
      simp only [List.map_cons, List.sum_cons] at hle
      omega
  · rintro ⟨hhead, hrest⟩ ahead y behind hsplit hy hbig
    cases ahead with
    | nil =>
      injection hsplit with hxy _
      subst hxy
      simpa only [List.map_nil, List.sum_nil, Nat.zero_add] using hhead hy hbig
    | cons z ahead =>
      injection hsplit with hxz hsplit
      subst hxz
      have hle := hrest ahead y behind hsplit hy hbig
      simp only [List.map_cons, List.sum_cons]
      omega

/-- Where the limit, once passed, stays passed, the two conditions agree. -/
theorem passable_iff {queue : List PriceLevel}
    (hmono : queue.Pairwise fun x y => beyond x.priceTicks = true → beyond y.priceTicks = true)
    (q : Nat) : Passable beyond q queue ↔ ClearPath beyond q queue := by
  induction queue generalizing q with
  | nil =>
    refine ⟨fun _ ahead x behind h => absurd h (by simp), fun _ => trivial⟩
  | cons x rest ih =>
    obtain ⟨hx, hrest⟩ := List.pairwise_cons.mp hmono
    have hmod := Nat.mod_le x.totalQuantity.toNat (2 ^ 32)
    rw [clearPath_cons]
    constructor
    · rintro (hzero | hbeyond | ⟨hlow, hle | ⟨hfits, hpass⟩⟩)
      · exact ⟨fun _ _ => by omega, fun _ _ _ _ _ _ => by omega⟩
      · -- the rest of the queue is beyond the limit too
        refine ⟨fun hwithin => absurd hbeyond (by simp [hwithin]), ?_⟩
        intro ahead y behind hsplit hy _
        rw [hx y (by rw [hsplit]; simp) hbeyond] at hy
        cases hy
      · exact ⟨fun _ _ => hle, fun _ _ _ _ _ _ => by omega⟩
      · exact ⟨fun _ _ => by omega, (ih hrest _).mp hpass⟩
    · rintro ⟨hhead, hclear⟩
      cases hbeyond : beyond x.priceTicks with
      | true => exact .inr (.inl hbeyond)
      | false =>
        by_cases hzero : q = 0
        · exact .inl hzero
        refine .inr (.inr ?_)
        by_cases hbig : x.totalQuantity.toNat = 0 ∨ 2 ^ 32 ≤ x.totalQuantity.toNat
        · have hle := hhead hbeyond hbig
          exact ⟨by omega, .inl hle⟩
        · exact ⟨by omega, .inr ⟨by omega, (ih hrest _).mpr hclear⟩⟩

end Sweeps

/-! ## `add_order` -/

section AddOrder

variable {n : PoolSize} {b : OrderBook n}

/-- The matching loop of a book's `add_order` ends having reported no fill of
0, exactly on a clear path. -/
theorem matching_progress_iff (side : Side) (priceTicks : Int64) (quantity : UInt32)
    (h : (b.ladder side.opposite).Sorted) :
    (∃ fuel s, b.matching fuel side priceTicks quantity = some s ∧ AllPositive s.fills) ↔
      ClearPath (fun p => (Taker.of side).beyond p priceTicks) quantity.toNat
        (side.queue (b.ladder side.opposite)) := by
  have hsim := fun fuel => (matching_sweeps b side priceTicks quantity h fuel).1
  rw [← passable_iff (queue_beyond side h priceTicks),
    ← sweep_progress_iff _ _ allPositive_nil]
  constructor
  · rintro ⟨fuel, s, hs, hpos⟩
    have hrun := hsim fuel
    rw [hs] at hrun
    exact ⟨fuel, _, hrun.symm, hpos⟩
  · rintro ⟨fuel, r, hr, hpos⟩
    have hrun := hsim fuel
    rw [hr, Option.map_eq_some_iff] at hrun
    obtain ⟨s, hs, rfl⟩ := hrun
    exact ⟨fuel, s, hs, hpos⟩

/-- **Matching ends with progress, up to the 32-bit cast.** In every book a
run can reach, `add_order` of a `Limit` order returns with every reported
match positive exactly when it is refused for want of a slot, or no level in
its reach has a total that the cast to 32 bits changes. -/
theorem limit_order_progress_iff {h : List (Event n)} (hrun : Run h b) (side : Side)
    (priceTicks : Int64) (quantity : UInt32) :
    (∃ fuel orderId fills b', b.addOrder fuel side priceTicks quantity .limit =
        some (orderId, fills, b') ∧ ∀ f ∈ fills, 0 < f.quantity) ↔
      b.freeList.contents = [] ∨
      ClearPath (fun p => (Taker.of side).beyond p priceTicks) quantity.toNat
        (side.queue (b.ladder side.opposite)) := by
  rw [← matching_progress_iff side priceTicks quantity ((wf_run hrun).sorted _)]
  have htype := OrderType.limit_ne_cancel
  obtain ⟨hnil, _⟩ | ⟨slot, freeList, hpop, hcons⟩ := b.freeList.pop_eq
  · refine iff_of_true ⟨0, 0, [], b.bump, ?_, by simp⟩ (.inl hnil)
    exact OrderBook.addOrder_refused htype hnil 0
  · have hne : b.freeList.contents ≠ [] := by rw [hcons]; simp
    have hcall := fun fuel =>
      OrderBook.addOrder_placed side priceTicks quantity htype hpop fuel
    constructor
    · rintro ⟨fuel, orderId, fills, b', hadd, hpos⟩
      obtain ⟨_, hnone⟩ | ⟨s, b₁, hs, hsome, _⟩ := hcall fuel
      · rw [hnone] at hadd
        cases hadd
      · rw [hsome] at hadd
        cases hadd
        exact .inr ⟨fuel, s, hs, hpos⟩
    · rintro (hnil | ⟨fuel, s, hs, hpos⟩)
      · exact absurd hnil hne
      · obtain ⟨hnone, _⟩ | ⟨s', b₁, hs', hsome, _⟩ := hcall fuel
        · rw [hs] at hnone
          cases hnone
        · rw [hs] at hs'
          cases hs'
          exact ⟨fuel, _, _, b₁, hsome, hpos⟩

theorem replay_one_ask : (replay 1 [.add .sell 10100 100 .limit]
    (([] : List (Event .four)), OrderBook.new .four 1)).isSome = true := by
  decide

/-- One ask of 100. -/
def oneAsk : List (Event .four) × OrderBook .four :=
  played 1 1 [.add .sell 10100 100 .limit] replay_one_ask

/-- A buyer of 60 meets the condition against an ask of 100. -/
theorem limit_order_progress_one_ask :
    ∃ fuel orderId fills b', oneAsk.2.addOrder fuel .buy 10100 60 .limit =
      some (orderId, fills, b') ∧ ∀ f ∈ fills, 0 < f.quantity := by
  have hrun : Run oneAsk.1 oneAsk.2 := run_played _
  refine (limit_order_progress_iff hrun .buy 10100 60).mpr (.inr ?_)
  have hqueue : Side.buy.queue (oneAsk.2.ladder Side.buy.opposite) = [⟨10100, 100, 1⟩] := by
    decide
  rw [hqueue]
  refine clearPath_of_small _ fun x hx => ?_
  rw [List.mem_singleton.mp hx]
  decide

/-- An order that reaches a level with a total of a positive multiple of
`2^32` never returns. -/
theorem addOrder_hangs {side : Side} {priceTicks : Int64} {quantity : UInt32} {x : PriceLevel}
    {rest : List PriceLevel} (hsorted : (b.ladder side.opposite).Sorted)
    (hfree : b.freeList.contents ≠ []) (hqueue : side.queue (b.ladder side.opposite) = x :: rest)
    (hq : quantity ≠ 0) (hx : (Taker.of side).beyond x.priceTicks priceTicks = false)
    (hlow : x.totalQuantity.toNat % 2 ^ 32 = 0) (hne : x.totalQuantity ≠ 0) (fuel : Nat) :
    b.addOrder fuel side priceTicks quantity .limit = none := by
  have hloop := (matching_sweeps b side priceTicks quantity hsorted fuel).1
  rw [hqueue, sweep_diverges hq hx hlow hne fuel, Option.map_eq_none_iff] at hloop
  obtain ⟨hnil, _⟩ | ⟨slot, freeList, hpop, _⟩ := b.freeList.pop_eq
  · exact absurd hnil hfree
  · obtain ⟨_, hnone⟩ | ⟨s, _, hs, _⟩ :=
      OrderBook.addOrder_placed side priceTicks quantity OrderType.limit_ne_cancel
        hpop fuel
    · exact hnone
    · rw [hloop] at hs
      cases hs

/-- Two asks of `2^31` at one price make a level of `2^32`.  A buyer of one
unit at that price is never answered. -/
theorem two_large_asks_hang :
    ∃ (h : List (Event .default)) (b : OrderBook .default), Run h b ∧
      h.map (·.call) = [.add .sell 100 0x80000000 .limit, .add .sell 100 0x80000000 .limit] ∧
      (∀ fuel, b.addOrder fuel .buy 100 1 .limit = none) ∧
      ¬ ∃ fuel orderId fills b', b.addOrder fuel .buy 100 1 .limit = some (orderId, fills, b') ∧
        ∀ f ∈ fills, 0 < f.quantity := by
  have htype := OrderType.limit_ne_cancel
  obtain ⟨rest₀, hfree₀, hlen⟩ := OrderBook.contents_new_cons .default 1 (by decide)
  -- an ask that meets no bid rests whole
  obtain ⟨b₁, _, hrun₁, hp₁, hcont₁⟩ := (Run.new 1).place htype hfree₀
    (OrderBook.matching_of_empty .sell (ladder_new 1 _) 100 0x80000000)
  have hbids₁ : b₁.ladder .buy = ⟨[]⟩ := hp₁.opposite
  have hasks₁ : b₁.ladder .sell = ⟨[⟨100, 0x80000000, 1⟩]⟩ := hp₁.own
  have hcont₁ : b₁.freeList.contents = rest₀ := hcont₁
  obtain ⟨slot₁, rest₁, rfl⟩ : ∃ slot rest, rest₀ = slot :: rest :=
    List.exists_cons_of_length_pos (by rw [hlen]; decide)
  obtain ⟨b₂, _, hrun₂, hp₂, hcont₂⟩ := hrun₁.place htype hcont₁
    (OrderBook.matching_of_empty .sell hbids₁ 100 0x80000000)
  have hasks₂ : b₂.ladder .sell = ⟨[⟨100, 0x100000000, 2⟩]⟩ := by
    rw [hp₂.own, hasks₁]
    rfl
  have hcont₂ : b₂.freeList.contents = rest₁ := hcont₂
  have hhang : ∀ fuel, b₂.addOrder fuel .buy 100 1 .limit = none := by
    have hqueue : Side.buy.queue (b₂.ladder Side.buy.opposite) = [⟨100, 0x100000000, 2⟩] := by
      rw [show Side.buy.opposite = .sell from rfl, hasks₂]
      rfl
    have hfree : b₂.freeList.contents ≠ [] := by
      rw [hcont₂]
      rintro rfl
      simp [PoolSize.maxOrders, PoolSize.default] at hlen
    exact addOrder_hangs ((wf_run hrun₂).sorted _) hfree hqueue (by decide) (by decide) (by decide)
      (by decide)
  refine ⟨_, b₂, hrun₂, rfl, hhang, ?_⟩
  rintro ⟨fuel, orderId, fills, b', hadd, _⟩
  rw [hhang fuel] at hadd
  cases hadd

end AddOrder

end HftEngine
