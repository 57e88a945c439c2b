import HftEngine.OrderBook.InFlight

/-!
# Callbacks that do no harm

A callback may call the book it was called by.  `Machine.Obeys allow` says of
a run that every such call is allowed in the state in which it is made;
`Machine.Survives` that at no moment is more reported at a price than rested
there, no total has underflowed, and no loop has used a pointer that dangles.

A call is `Harmless` if it leaves the level of the waiting fills in its place
and does not touch what they will take off it: a cancel, an order of the same
side that does not reach the level or wants no more than the level can spare,
an order of the other side at a price that has a level already.

* `Steady` — the invariant: the loops that wait are orders of one side, all
  of them at the level that side takes first, and the level holds what they
  will take;
* `steady_step` — a harmless call, or a return, is taken and keeps it;
* `survives_of_steady` — so a run whose callbacks do no harm survives;
* `overtaking_overfills` — an order of the same side that reaches the level
  and wants more than what is not in flight overfills at once.
-/

namespace HftEngine

open Lib

variable {n : PoolSize}

/-! ## Rules for callbacks -/

/-- The quantity an input asks for. -/
def Input.quantity : Input → Nat
  | .call c => c.quantity
  | .ret => 0

def orderedQty (inputs : List Input) : Nat := (inputs.map Input.quantity).sum

/-- What waiting loops, the innermost first, may still take off their level:
the outermost the fill it was told of, every other one all of its order.  The
level has to be there for the outermost even if its fill is of 0. -/
def spokenFor : List Frame → Nat
  | [] => 0
  | [f] => max 1 f.result.quantity.toNat
  | f :: g :: frames => f.order.quantity.toNat + spokenFor (g :: frames)

namespace Machine

section Rules

variable (grow : Nat → Nat)

/-- Each call that a callback makes is allowed in the state it is made in. -/
def Obeys (allow : Machine n → Call → Prop) : Machine n → List Input → Prop
  | _, [] => True
  | m, i :: inputs =>
    (∀ c, i = .call c → m.frames ≠ [] → allow m c) ∧
      ∀ m', m.step grow i = some m' → Obeys allow m' inputs

/-- At every moment of a run: the machine has a state, no fill was taken off
a level that held less, and no more was reported at a price than rested
there. -/
def Survives (start : Machine n) (inputs : List Input) : Prop :=
  ∀ before, before <+: inputs → ∃ m, start.run grow before = some m ∧ NoUnderflow m.log ∧
    ∀ side p, reportedQty side p m.log ≤ restedQty side p m.log

end Rules

/-- An order of `quantity` may start its loop while others wait.  Against an
order of its own side it must not reach the level that one waits for, or leave
there what is spoken for; against one of the other side it must rest at a
price that has a level, so that the vector stays as it is. -/
def Admits (m : Machine n) (side : Side) (priceTicks : Int64) (quantity : UInt32) : Prop :=
  quantity = 0 ∨ ∀ f ∈ m.frames,
    if f.order.side = side then
      (Taker.of side).beyond f.result.priceTicks priceTicks = true ∨
        spokenFor m.frames + quantity.toNat ≤ (m.book.ladder f.sweeps).qtyAt f.result.priceTicks
    else ((m.book.ladder side).find priceTicks).isSome = true

/-- The calls that do no harm to the loops that wait. -/
def Harmless (m : Machine n) : Call → Prop
  | .add side priceTicks quantity type =>
    type = .cancel ∨ m.book.freeList.contents = [] ∨ m.Admits side priceTicks quantity
  | .cancel _ => True

end Machine

/-- A call that neither trades nor rests, whatever the book. -/
def Call.Inert : Call → Prop
  | .add _ _ quantity type => type = .cancel ∨ quantity = 0
  | .cancel _ => True

theorem Call.Inert.harmless {c : Call} (h : c.Inert) (m : Machine n) : m.Harmless c := by
  cases c with
  | cancel orderId => trivial
  | add side p q type =>
    rcases h with htype | hq
    · exact .inl htype
    · exact .inr (.inr (.inl hq))

/-! ## What is spoken for -/

theorem spokenFor_cons (f : Frame) {frames : List Frame} (h : frames ≠ []) :
    spokenFor (f :: frames) = f.order.quantity.toNat + spokenFor frames := by
  cases frames with
  | nil => exact absurd rfl h
  | cons g frames => rfl

theorem spokenFor_pos {frames : List Frame} (h : frames ≠ []) : 0 < spokenFor frames := by
  induction frames with
  | nil => exact absurd rfl h
  | cons f frames ih =>
    cases frames with
    | nil => exact Nat.lt_of_lt_of_le Nat.zero_lt_one (Nat.le_max_left _ _)
    | cons g frames =>
      have hpos := ih (by simp)
      rw [spokenFor_cons f (by simp)]
      omega

/-- What the innermost loop was told of is spoken for, and so is the rest. -/
theorem spokenFor_innermost {f : Frame} (frames : List Frame)
    (hle : f.result.quantity ≤ f.order.quantity) :
    f.result.quantity.toNat + (if frames = [] then 0 else
      spokenFor frames + (f.order.quantity - f.result.quantity).toNat) ≤ spokenFor (f :: frames) := by
  rw [UInt32.toNat_sub_of_le _ _ hle]
  rw [UInt32.le_iff_toNat_le] at hle
  cases frames with
  | nil => exact Nat.le_max_right _ _
  | cons g frames =>
    rw [spokenFor_cons f (by simp), if_neg (by simp)]
    omega

theorem inFlight_le_spokenFor (side : Side) (p : Int64) {frames : List Frame}
    (h : ∀ f ∈ frames, f.result.quantity ≤ f.order.quantity) :
    inFlight side p frames ≤ spokenFor frames := by
  have hat : ∀ f : Frame, f.inFlightAt side p ≤ f.result.quantity.toNat := by
    intro f
    unfold Frame.inFlightAt
    split
    · exact Nat.le_refl _
    · exact Nat.zero_le _
  induction frames with
  | nil => exact Nat.le_refl _
  | cons f frames ih =>
    obtain ⟨hf, hframes⟩ := List.forall_mem_cons.mp h
    have hhere := hat f
    have hrest := ih hframes
    rw [inFlight_cons]
    cases frames with
    | nil => exact hhere.trans (Nat.le_max_right _ _)
    | cons g frames =>
      rw [spokenFor_cons f (by simp)]
      rw [UInt32.le_iff_toNat_le] at hf
      omega

/-! ## The level at the front -/

section Front

variable {side : Side} {l : FlatPriceLadder} {x : PriceLevel}

theorem queue_of_top (h : (Taker.of side).top l = some x) : ∃ rest, side.queue l = x :: rest := by
  rw [top_eq] at h
  exact ⟨_, List.eq_cons_of_mem_head? h⟩

theorem mem_of_top (h : (Taker.of side).top l = some x) : x ∈ l.levels := by
  obtain ⟨rest, hq⟩ := queue_of_top h
  exact mem_queue.mp (by rw [hq]; exact List.mem_cons_self)

theorem qtyAt_top (hl : l.Sorted) (h : (Taker.of side).top l = some x) :
    l.qtyAt x.priceTicks = x.totalQuantity.toNat := by
  rw [FlatPriceLadder.qtyAt_of_find hl, FlatPriceLadder.find_of_mem hl (mem_of_top h)]
  rfl

theorem length_queue (side : Side) (l : FlatPriceLadder) : (side.queue l).length = l.size := by
  cases side with
  | buy => rfl
  | sell => exact List.length_reverse

theorem topIndex_of_size {l' : FlatPriceLadder} (h : l'.size = l.size) :
    side.topIndex l' = side.topIndex l := by
  cases side with
  | buy => rfl
  | sell => exact congrArg (· - 1) h

/-- A write through the pointer to the front level, which is dropped if the
write left it empty. -/
theorem queue_lowered (hl : l.Sorted) {rest : List PriceLevel} (hq : side.queue l = x :: rest)
    {y : PriceLevel} (hy : y.priceTicks = x.priceTicks) :
    side.queue ((l.writeAt (side.topIndex l) y).removeIfEmpty x.priceTicks) =
      if y.totalQuantity = 0 then rest else y :: rest := by
  have htop : (Taker.of side).top l = some x := by
    rw [top_eq, hq]
    rfl
  rw [(topIndex_spec htop y).2, ← hy]
  exact (write_queue hl hq hy).1

/-- What such a write leaves: the level if it is not empty, and the others. -/
theorem lowered_spec (hl : l.Sorted) (h : (Taker.of side).top l = some x) {y : PriceLevel}
    (hy : y.priceTicks = x.priceTicks) {l' : FlatPriceLadder}
    (hl' : l' = (l.writeAt (side.topIndex l) y).removeIfEmpty x.priceTicks) :
    (∀ z ∈ l'.levels, (z = y ∧ y.totalQuantity ≠ 0) ∨ z ∈ l.levels) ∧ l'.size ≤ l.size ∧
      (y.totalQuantity ≠ 0 → l'.size = l.size ∧ (Taker.of side).top l' = some y) := by
  obtain ⟨rest, hq⟩ := queue_of_top h
  have hsize := length_queue side l
  have hsize' := length_queue side l'
  have hqueue := queue_lowered hl hq hy
  rw [← hl'] at hqueue
  have hrest : ∀ z ∈ rest, z ∈ l.levels := by
    intro z hz
    exact mem_queue.mp (by rw [hq]; exact List.mem_cons_of_mem _ hz)
  rw [hq, List.length_cons] at hsize
  by_cases hzero : y.totalQuantity = 0
  · rw [if_pos hzero] at hqueue
    rw [hqueue] at hsize'
    refine ⟨?_, by omega, fun hne => absurd hzero hne⟩
    intro z hz
    have hmem : z ∈ side.queue l' := mem_queue.mpr hz
    rw [hqueue] at hmem
    exact .inr (hrest z hmem)
  · rw [if_neg hzero] at hqueue
    rw [hqueue, List.length_cons] at hsize'
    refine ⟨?_, by omega, fun _ => ⟨by omega, by rw [top_eq, hqueue]; rfl⟩⟩
    intro z hz
    have hmem : z ∈ side.queue l' := mem_queue.mpr hz
    rw [hqueue] at hmem
    rcases List.mem_cons.mp hmem with rfl | hmem
    · exact .inl ⟨rfl, hzero⟩
    · exact .inr (hrest z hmem)

/-- One level of a queue replaced by a larger one: the front is that level, or
it is as it was. -/
theorem head?_replaced {ahead behind : List PriceLevel} {z w : PriceLevel}
    (h : (ahead ++ z :: behind).head? = some x) (hprice : w.priceTicks = z.priceTicks)
    (htotal : z.totalQuantity.toNat ≤ w.totalQuantity.toNat) :
    ∃ y, (ahead ++ w :: behind).head? = some y ∧ y.priceTicks = x.priceTicks ∧
      x.totalQuantity.toNat ≤ y.totalQuantity.toNat := by
  cases ahead with
  | nil =>
    cases h
    exact ⟨w, rfl, hprice, htotal⟩
  | cons v ahead =>
    cases h
    exact ⟨x, rfl, rfl, Nat.le_refl _⟩

/-- An order that joins a level leaves the vector as it is but for that
level. -/
theorem top_joined (hl : l.Sorted) (h : (Taker.of side).top l = some x) {p : Int64} {q : UInt32}
    (hfind : (l.find p).isSome = true) (hroom : l.qtyAt p + q.toNat < 2 ^ 64) :
    (l.upsert p q).size = l.size ∧ ∃ y, (Taker.of side).top (l.upsert p q) = some y ∧
      y.priceTicks = x.priceTicks ∧ x.totalQuantity.toNat ≤ y.totalQuantity.toNat := by
  obtain ⟨z, hz⟩ := Option.isSome_iff_exists.mp hfind
  rw [FlatPriceLadder.qtyAt_of_find hl, hz] at hroom
  have hroom : z.totalQuantity.toNat + q.toNat < 2 ^ 64 := hroom
  have hgrown : z.totalQuantity.toNat ≤ (z.totalQuantity + q.toUInt64).toNat := by
    rw [UInt64.toNat_add, UInt32.toNat_toUInt64, Nat.mod_eq_of_lt hroom]
    exact Nat.le_add_right _ _
  rcases FlatPriceLadder.upsert_cases hl p q with ⟨lo, w, hi, hlevels, rfl, _, _, hu⟩ |
    ⟨lo, hi, hlevels, hlo, hhi, _⟩
  · have hw := FlatPriceLadder.find_of_mem hl (by rw [hlevels]; simp : w ∈ l.levels)
    rw [hz] at hw
    cases hw
    refine ⟨by simp [FlatPriceLadder.size, hlevels, hu], ?_⟩
    rw [top_eq] at h ⊢
    cases side with
    | buy =>
      simp only [Side.queue, hlevels, hu] at h ⊢
      exact head?_replaced h rfl hgrown
    | sell =>
      simp only [Side.queue, hlevels, hu, List.reverse_append, List.reverse_cons,
        List.append_assoc, List.singleton_append] at h ⊢
      exact head?_replaced h rfl hgrown
  · obtain ⟨hmem, hprice⟩ := (FlatPriceLadder.find_eq_some hl).mp hz
    rw [hlevels] at hmem
    rcases List.mem_append.mp hmem with hmem | hmem
    · exact absurd hprice (hlo z hmem).ne
    · exact absurd hprice (hhi z hmem).ne'

end Front

/-- A loop that ends with quantity left has nothing within its limit. -/
theorem beyond_of_next {a : Activation} {l : FlatPriceLadder} (hl : l.Sorted)
    (hq : a.quantity ≠ 0) (h : a.next l = none) :
    ∀ y ∈ l.levels, (Taker.of a.side).beyond y.priceTicks a.priceTicks = true := by
  intro y hy
  have hmem : y ∈ a.side.queue l := mem_queue.mpr hy
  have hpair := queue_beyond a.side hl a.priceTicks
  cases hqueue : a.side.queue l with
  | nil =>
    rw [hqueue] at hmem
    exact absurd hmem (by simp)
  | cons x rest =>
    have htop : (Taker.of a.side).top l = some x := by
      rw [top_eq, hqueue]
      rfl
    have hx : (Taker.of a.side).beyond x.priceTicks a.priceTicks = true := by
      cases hbeyond : (Taker.of a.side).beyond x.priceTicks a.priceTicks with
      | true => rfl
      | false =>
        have hsome := next_eq_some.mpr ⟨UInt32.pos_iff_ne_zero.mpr hq, htop, hbeyond⟩
        rw [h] at hsome
        cases hsome
    rw [hqueue] at hmem hpair
    rcases List.mem_cons.mp hmem with rfl | hmem
    · exact hx
    · exact (List.pairwise_cons.mp hpair).1 y hmem hx

theorem Buffer.le_capacity_fit (grow : Nat → Nat) (buffer : Buffer) (size : Nat) :
    size ≤ (buffer.fit grow size).capacity := by
  unfold fit
  split
  · assumption
  · exact Nat.le_max_left _ _

/-! ## The invariant -/

/-- The loops that wait are orders of `side`, told of the level which that
side takes first; their pointers lead to it, and it holds what is spoken
for. -/
structure Waiting (m : Machine n) (side : Side) (level : PriceLevel) : Prop where
  top : (Taker.of side).top (m.book.ladder side.opposite) = some level
  frames : ∀ f ∈ m.frames, f.order.side = side ∧ f.result.priceTicks = level.priceTicks ∧
    f.level = ⟨(m.buffers side.opposite).generation, side.topIndex (m.book.ladder side.opposite)⟩ ∧
    f.result.quantity ≤ f.order.quantity
  held : spokenFor m.frames ≤ level.totalQuantity.toNat

/-- What holds at every moment of a run whose callbacks do no harm, once
orders of `ordered` units in all have come in. -/
structure Steady (ordered : Nat) (m : Machine n) : Prop where
  wf : Wf m.book
  balanced : Balanced m
  positive : ∀ side, ∀ x ∈ (m.book.ladder side).levels, x.totalQuantity ≠ 0
  room : ∀ side, (m.book.ladder side).size ≤ (m.buffers side).capacity
  brought : ∀ side p, restedQty side p m.log + (m.frames.map (·.order.quantity.toNat)).sum ≤ ordered
  noUnderflow : NoUnderflow m.log
  waiting : m.frames ≠ [] → ∃ side level, Waiting m side level

/-- A change that leaves the front level in its place, with no less on it,
leaves the waiting loops as they were. -/
theorem Waiting.of_kept {m m' : Machine n} {side : Side} {level level' : PriceLevel}
    (h : Waiting m side level) (hframes : m'.frames = m.frames)
    (hgeneration : (m'.buffers side.opposite).generation = (m.buffers side.opposite).generation)
    (hsize : (m'.book.ladder side.opposite).size = (m.book.ladder side.opposite).size)
    (htop : (Taker.of side).top (m'.book.ladder side.opposite) = some level')
    (hprice : level'.priceTicks = level.priceTicks)
    (htotal : level.totalQuantity.toNat ≤ level'.totalQuantity.toNat) :
    Waiting m' side level' := by
  refine ⟨htop, ?_, ?_⟩
  · rw [hframes, hgeneration, topIndex_of_size hsize, hprice]
    exact h.frames
  · rw [hframes]
    exact h.held.trans htotal

namespace Machine

variable (grow : Nat → Nat) {m m' : Machine n} {ordered k : Nat}

theorem Steady.mono (h : Steady k m) (hle : k ≤ ordered) : Steady ordered m :=
  { h with brought := fun side p => (h.brought side p).trans hle }

theorem steady_new (symbolId : UInt32) : Steady 0 (Machine.new n symbolId) where
  wf := wf_new symbolId
  balanced := balanced_new symbolId
  positive := by
    intro side x hx
    have hnone : (Machine.new n symbolId).book.ladder side = ⟨[]⟩ := ladder_new symbolId side
    rw [hnone] at hx
    exact absurd hx (by simp)
  room := by
    intro side
    have hnone : (Machine.new n symbolId).book.ladder side = ⟨[]⟩ := ladder_new symbolId side
    rw [hnone]
    exact Nat.zero_le _
  brought := fun _ _ => Nat.le_refl _
  noUnderflow := fun _ _ _ hmem => absurd hmem (by simp [Machine.new])
  waiting := fun hne => absurd rfl hne

/-- Where the invariant holds, what is reported rested. -/
theorem Steady.reported_le (h : Steady ordered m) (side : Side) (p : Int64) :
    reportedQty side p m.log ≤ restedQty side p m.log := by
  have hbalance := h.balanced.balance side p
  have hcovered : inFlight side p m.frames ≤ (m.book.ladder side).qtyAt p := by
    by_cases hne : m.frames = []
    · rw [hne]
      exact Nat.zero_le _
    obtain ⟨side', level, hw⟩ := h.waiting hne
    by_cases hat : side'.opposite = side ∧ level.priceTicks = p
    · obtain ⟨rfl, rfl⟩ := hat
      rw [qtyAt_top (h.wf.sorted _) hw.top]
      exact (inFlight_le_spokenFor _ _ fun f hf => (hw.frames f hf).2.2.2).trans hw.held
    · -- nothing is in flight there
      have hzero : inFlight side p m.frames = 0 := by
        unfold inFlight
        rw [List.sum_eq_zero_iff]
        intro q hq
        obtain ⟨f, hf, rfl⟩ := List.mem_map.mp hq
        obtain ⟨hside, hprice, _⟩ := hw.frames f hf
        unfold Frame.inFlightAt Frame.sweeps
        rw [hside, hprice, if_neg hat]
      rw [hzero]
      exact Nat.zero_le _
  omega

/-! ## A loop goes on -/

/-- An order that may start or go on while others wait, and finds a level to
trade with: it is the level they wait for, and it can spare the order. -/
theorem level_of_admits {side : Side} {level₀ : PriceLevel} (hwf : Wf m.book)
    (hw : Waiting m side level₀) (hne : m.frames ≠ []) {a : Activation}
    (hadmits : m.Admits a.side a.priceTicks a.quantity) {level : PriceLevel}
    (hnext : a.next (m.book.ladder a.side.opposite) = some level) :
    side = a.side ∧ level₀ = level ∧
      spokenFor m.frames + a.quantity.toNat ≤ level.totalQuantity.toNat := by
  obtain ⟨hpos, htop, hwithin⟩ := next_eq_some.mp hnext
  obtain ⟨f, hf⟩ := List.exists_mem_of_ne_nil _ hne
  obtain ⟨hside, hprice, _⟩ := hw.frames f hf
  rcases hadmits with hzero | hadmits
  · exact absurd hzero (UInt32.pos_iff_ne_zero.mp hpos)
  have hrule := hadmits f hf
  by_cases hsame : f.order.side = a.side
  · have hs : side = a.side := hside.symm.trans hsame
    subst hs
    have hlevel : level₀ = level := Option.some.inj (hw.top.symm.trans htop)
    subst hlevel
    rw [if_pos hsame, Frame.sweeps, hsame, hprice, hwithin, qtyAt_top (hwf.sorted _) htop] at hrule
    exact ⟨rfl, rfl, hrule.resolve_left (by simp)⟩
  · -- the order is at a price of its own ladder, which the other one is beyond
    rw [if_neg hsame] at hrule
    obtain ⟨x, hx⟩ := Option.isSome_iff_exists.mp hrule
    obtain ⟨hmem, hxp⟩ := (FlatPriceLadder.find_eq_some (hwf.sorted _)).mp hx
    have hbeyond := (uncrossed_iff m.book a.side).mp hwf.uncrossed x hmem level (mem_of_top htop)
    rw [hxp, hwithin] at hbeyond
    cases hbeyond

theorem steady_report (h : Steady k m) {a : Activation} (hk : k + a.quantity.toNat ≤ ordered)
    (hadmits : m.Admits a.side a.priceTicks a.quantity) {level : PriceLevel}
    (hnext : a.next (m.book.ladder a.side.opposite) = some level) :
    Steady ordered (m.report a level) := by
  obtain ⟨hpos, htop, _⟩ := next_eq_some.mp hnext
  have hquantity := toNat_sub_fillQty a.quantity level
  have htotal := toNat_fill_fillQty a.quantity level
  have hfill : fillQty a.quantity level ≤ a.quantity := by
    rw [UInt32.le_iff_toNat_le]
    omega
  refine ⟨h.wf, balanced_report h.balanced a level, h.positive, h.room, ?_, ?_, ?_⟩
  · intro side p
    have hbrought := h.brought side p
    simp only [report, restedQty_cons, Obs.restedAt, List.map_cons, List.sum_cons]
    omega
  · intro side level' result hmem
    exact h.noUnderflow side level' result (by simpa [report] using hmem)
  · intro _
    refine ⟨a.side, level, htop, ?_, ?_⟩
    · intro f hf
      rcases List.mem_cons.mp hf with rfl | hmem
      · exact ⟨rfl, rfl, rfl, hfill⟩
      · have hne : m.frames ≠ [] := List.ne_nil_of_mem hmem
        obtain ⟨side, level₀, hw⟩ := h.waiting hne
        obtain ⟨rfl, rfl, _⟩ := level_of_admits h.wf hw hne hadmits hnext
        exact hw.frames f hmem
    · show spokenFor (_ :: m.frames) ≤ _
      by_cases hne : m.frames = []
      · -- the first loop to wait: a level is never empty
        have hsome : level.totalQuantity.toNat ≠ 0 :=
          fun hz => h.positive _ level (mem_of_top htop) (UInt64.toNat_inj.mp hz)
        rw [hne]
        exact Nat.max_le.mpr ⟨by omega, by show (fillQty a.quantity level).toNat ≤ _; omega⟩
      · obtain ⟨side, level₀, hw⟩ := h.waiting hne
        obtain ⟨_, _, hspared⟩ := level_of_admits h.wf hw hne hadmits hnext
        rw [spokenFor_cons _ hne]
        show a.quantity.toNat + _ ≤ _
        omega

/-- A ladder that still fits its memory stays there. -/
theorem buffers_finish {a : Activation} {side : Side}
    (h : ((m.finish grow a).book.ladder side).size ≤ (m.buffers side).capacity) :
    (m.finish grow a).buffers side = m.buffers side :=
  if_pos h

theorem ladder_finish_other {a : Activation} {side : Side}
    (h : ¬(side = a.side ∧ a.quantity ≠ 0)) :
    (m.finish grow a).book.ladder side = m.book.ladder side := by
  rw [ladder_finish, if_neg h]

theorem wf_finish (hwf : Wf m.book) {a : Activation}
    (hnext : a.next (m.book.ladder a.side.opposite) = none) : Wf (m.finish grow a).book := by
  have hcross := (uncrossed_iff m.book a.side).mp hwf.uncrossed
  have hopp : (m.finish grow a).book.ladder a.side.opposite = m.book.ladder a.side.opposite :=
    ladder_finish_other grow fun hc => a.side.opposite_ne hc.1
  by_cases hzero : a.quantity = 0
  · have hown : (m.finish grow a).book.ladder a.side = m.book.ladder a.side :=
      ladder_finish_other grow fun hc => hc.2 hzero
    refine wf_of_sides a.side ?_ ?_ ?_
    · rw [hown]
      exact hwf.sorted _
    · rw [hopp]
      exact hwf.sorted _
    · rw [hown, hopp]
      exact hcross
  · have hown := ladder_finish grow m a a.side
    rw [if_pos ⟨rfl, hzero⟩] at hown
    refine wf_of_sides a.side ?_ ?_ ?_
    · rw [hown]
      exact FlatPriceLadder.sorted_upsert (hwf.sorted _) _ _
    · rw [hopp]
      exact hwf.sorted _
    · rw [hown, hopp]
      exact beyond_upsert (hwf.sorted _) hcross (beyond_of_next (hwf.sorted _) hzero hnext)

theorem positive_finish (h : Steady k m) {a : Activation}
    (hfits : ∀ side p, restedQty side p (m.finish grow a).log < 2 ^ 64) (side : Side) :
    ∀ x ∈ ((m.finish grow a).book.ladder side).levels, x.totalQuantity ≠ 0 := by
  by_cases hrests : side = a.side ∧ a.quantity ≠ 0
  · obtain ⟨rfl, hzero⟩ := hrests
    rw [ladder_finish, if_pos ⟨rfl, hzero⟩]
    exact FlatPriceLadder.positive_upsert (h.wf.sorted _) hzero
      (room_finish grow h.balanced hzero hfits) (h.positive _)
  · rw [ladder_finish_other grow hrests]
    exact h.positive side

/-- The loops that wait stay where they are when an order ends that was
admitted beside them. -/
theorem waiting_finish (h : Steady k m) {a : Activation}
    (hadmits : m.Admits a.side a.priceTicks a.quantity)
    (hfits : ∀ side p, restedQty side p (m.finish grow a).log < 2 ^ 64) {side : Side}
    {level : PriceLevel} (hw : Waiting m side level) (hne : m.frames ≠ []) :
    ∃ level', Waiting (m.finish grow a) side level' := by
  -- a ladder that keeps its size keeps its memory
  have hkept : ∀ side, ((m.finish grow a).book.ladder side).size = (m.book.ladder side).size →
      (m.finish grow a).buffers side = m.buffers side := by
    intro side hsize
    exact buffers_finish grow (by rw [hsize]; exact h.room side)
  by_cases hrests : side.opposite = a.side ∧ a.quantity ≠ 0
  · -- the order joins the ladder the others point into, at a level that is there
    obtain ⟨hside, hzero⟩ := hrests
    obtain ⟨f, hf⟩ := List.exists_mem_of_ne_nil _ hne
    have hrule := hadmits.resolve_left hzero f hf
    have hdiffer : f.order.side ≠ a.side := by
      rw [(hw.frames f hf).1, ← hside]
      exact side.opposite_ne.symm
    rw [if_neg hdiffer] at hrule
    have htop := hw.top
    rw [hside] at htop
    obtain ⟨hsize, y, hy, hprice, htotal⟩ := top_joined (h.wf.sorted _) htop hrule
      (room_finish grow h.balanced hzero hfits)
    have hown : (m.finish grow a).book.ladder side.opposite =
        (m.book.ladder a.side).upsert a.priceTicks a.quantity := by
      rw [ladder_finish, if_pos ⟨hside, hzero⟩, hside]
    have hsize' : ((m.finish grow a).book.ladder side.opposite).size =
        (m.book.ladder side.opposite).size := by
      rw [hown, hside]
      exact hsize
    refine ⟨y, hw.of_kept rfl (by rw [hkept _ hsize']) hsize' ?_ hprice htotal⟩
    rw [hown]
    exact hy
  · have hsame := ladder_finish_other (m := m) grow hrests
    refine ⟨level, hw.of_kept rfl ?_ (by rw [hsame]) (by rw [hsame]; exact hw.top) rfl
      (Nat.le_refl _)⟩
    rw [hkept _ (by rw [hsame])]

/-- The end of an order: what is left of it rests where it may. -/
theorem steady_finish (h : Steady k m) {a : Activation} (hk : k + a.quantity.toNat ≤ ordered)
    (hbound : ordered < 2 ^ 64) (hadmits : m.Admits a.side a.priceTicks a.quantity)
    (hnext : a.next (m.book.ladder a.side.opposite) = none) :
    Steady ordered (m.finish grow a) := by
  have hbrought : ∀ side p, restedQty side p (m.finish grow a).log +
      (m.frames.map (·.order.quantity.toNat)).sum ≤ ordered := by
    intro side p
    have hbefore := h.brought side p
    rw [(log_finish grow m a side p).2]
    split <;> omega
  have hfits : ∀ side p, restedQty side p (m.finish grow a).log < 2 ^ 64 := by
    intro side p
    have hle := hbrought side p
    omega
  refine ⟨wf_finish grow h.wf hnext, balanced_finish grow h.balanced a hfits,
    positive_finish grow h hfits, fun side => Buffer.le_capacity_fit grow _ _, hbrought, ?_, ?_⟩
  · intro side level result hmem
    refine h.noUnderflow side level result ?_
    by_cases hzero : a.quantity = 0 <;> simpa [finish, hzero] using hmem
  · intro hne
    obtain ⟨side, level, hw⟩ := h.waiting hne
    exact ⟨side, waiting_finish grow h hadmits hfits hw hne⟩

theorem steady_proceed (h : Steady k m) {a : Activation} (hk : k + a.quantity.toNat ≤ ordered)
    (hbound : ordered < 2 ^ 64) (hadmits : m.Admits a.side a.priceTicks a.quantity) :
    Steady ordered (m.proceed grow a) := by
  cases hnext : a.next (m.book.ladder a.side.opposite) with
  | none =>
    rw [proceed_finish grow hnext]
    exact steady_finish grow h hk hbound hadmits hnext
  | some level =>
    rw [proceed_report grow hnext]
    exact steady_report h hk hadmits hnext

/-! ## A callback returns -/

/-- What a fill leaves that was taken off the level which orders of `side`
take first: that level as `y`, if it is not empty, and the others. -/
structure Lowered (m m' : Machine n) (side : Side) (y : PriceLevel) : Prop where
  buffers : m'.buffers = m.buffers
  other : m'.book.ladder side = m.book.ladder side
  sorted : (m'.book.ladder side.opposite).Sorted
  levels : ∀ z ∈ (m'.book.ladder side.opposite).levels,
    (z = y ∧ y.totalQuantity ≠ 0) ∨ z ∈ (m.book.ladder side.opposite).levels
  size : (m'.book.ladder side.opposite).size ≤ (m.book.ladder side.opposite).size
  stays : y.totalQuantity ≠ 0 →
    (m'.book.ladder side.opposite).size = (m.book.ladder side.opposite).size ∧
      (Taker.of side).top (m'.book.ladder side.opposite) = some y

namespace Lowered

variable {side : Side} {level y : PriceLevel}

theorem wf (h : Lowered m m' side y) (hwf : Wf m.book)
    (htop : (Taker.of side).top (m.book.ladder side.opposite) = some level)
    (hy : y.priceTicks = level.priceTicks) : Wf m'.book := by
  have hcross := (uncrossed_iff m.book side).mp hwf.uncrossed
  refine wf_of_sides side ?_ h.sorted ?_
  · rw [h.other]
    exact hwf.sorted side
  · rw [h.other]
    intro x hx z hz
    rcases h.levels z hz with ⟨rfl, _⟩ | hz
    · rw [hy]
      exact hcross x hx level (mem_of_top htop)
    · exact hcross x hx z hz

theorem positive (h : Lowered m m' side y)
    (hpos : ∀ side, ∀ x ∈ (m.book.ladder side).levels, x.totalQuantity ≠ 0) (side' : Side) :
    ∀ x ∈ (m'.book.ladder side').levels, x.totalQuantity ≠ 0 := by
  intro x hx
  rcases Side.eq_or_opposite side side' with rfl | rfl
  · rw [h.other] at hx
    exact hpos _ x hx
  · rcases h.levels x hx with ⟨rfl, hne⟩ | hx
    · exact hne
    · exact hpos _ x hx

theorem room (h : Lowered m m' side y)
    (hroom : ∀ side, (m.book.ladder side).size ≤ (m.buffers side).capacity) (side' : Side) :
    (m'.book.ladder side').size ≤ (m'.buffers side').capacity := by
  rw [h.buffers]
  rcases Side.eq_or_opposite side side' with rfl | rfl
  · rw [h.other]
    exact hroom _
  · exact h.size.trans (hroom _)

/-- The loops that still wait find the level in its place. -/
theorem waiting (h : Lowered m m' side y) (hw : Waiting m side level)
    (hy : y.priceTicks = level.priceTicks) (hframes : ∀ f ∈ m'.frames, f ∈ m.frames)
    (hne : m'.frames ≠ []) (hheld : spokenFor m'.frames ≤ y.totalQuantity.toNat) :
    Waiting m' side y := by
  have hleft : y.totalQuantity ≠ 0 := by
    intro hz
    have hpos := spokenFor_pos hne
    rw [hz, UInt64.toNat_zero] at hheld
    omega
  obtain ⟨hsize, htop⟩ := h.stays hleft
  refine ⟨htop, ?_, hheld⟩
  rw [h.buffers, topIndex_of_size hsize, hy]
  exact fun f hf => hw.frames f (hframes f hf)

end Lowered

/-- An order may go on that leaves on the level what is spoken for. -/
theorem admits_of_waiting {side : Side} {level : PriceLevel} (hw : Waiting m side level)
    (hsorted : (m.book.ladder side.opposite).Sorted) {q : UInt32}
    (hle : spokenFor m.frames + q.toNat ≤ level.totalQuantity.toNat) (p : Int64) :
    m.Admits side p q := by
  refine .inr ?_
  intro f hf
  obtain ⟨hside, hprice, _⟩ := hw.frames f hf
  rw [if_pos hside, Frame.sweeps, hside, hprice, qtyAt_top hsorted hw.top]
  exact .inr hle

theorem lowered_lower (h : Steady k m) {f : Frame} {level : PriceLevel}
    (hw : Waiting m f.order.side level)
    (hptr : f.level = ⟨(m.buffers f.sweeps).generation,
      f.order.side.topIndex (m.book.ladder f.sweeps)⟩)
    (hlevel : (m.book.ladder f.sweeps).levels[f.level.index]? = some level)
    (hprice : f.result.priceTicks = level.priceTicks)
    (hcovered : f.result.quantity.toNat ≤ level.totalQuantity.toNat) (frames : List Frame) :
    Lowered m (lower f level { m with frames := frames }) f.order.side
      (level.fill f.result.quantity) := by
  have hswept : (lower f level { m with frames := frames }).book.ladder f.sweeps =
      ((m.book.ladder f.sweeps).writeAt (f.order.side.topIndex (m.book.ladder f.sweeps))
        (level.fill f.result.quantity)).removeIfEmpty level.priceTicks := by
    rw [ladder_lower, if_pos rfl, hptr]
  have hother : f.order.side ≠ f.sweeps := f.order.side.opposite_ne.symm
  obtain ⟨hlevels, hsize, hstays⟩ := lowered_spec (h.wf.sorted f.sweeps) hw.top
    (y := level.fill f.result.quantity) rfl hswept
  exact ⟨rfl, by rw [ladder_lower, if_neg hother],
    (qtyAt_lower h.balanced hlevel hprice.symm hcovered _).1, hlevels, hsize, hstays⟩

/-- The innermost loop's pointer leads to its level; once its fill is taken
off, the loop may go on. -/
theorem steady_lower (h : Steady ordered m) {f : Frame} {frames : List Frame}
    (hframes : m.frames = f :: frames) :
    ∃ level, f.level.generation = (m.buffers f.sweeps).generation ∧
      (m.book.ladder f.sweeps).levels[f.level.index]? = some level ∧
      f.result.quantity ≤ f.order.quantity ∧
      Steady (ordered - f.order.quantity.toNat) (lower f level { m with frames := frames }) ∧
      (lower f level { m with frames := frames }).Admits f.order.side f.order.priceTicks
        (f.order.quantity - f.result.quantity) := by
  have hne : m.frames ≠ [] := by rw [hframes]; simp
  obtain ⟨side, level, hw⟩ := h.waiting hne
  obtain ⟨rfl, hprice, hptr, hle⟩ := hw.frames f (by rw [hframes]; exact List.mem_cons_self)
  have hlevel : (m.book.ladder f.sweeps).levels[f.level.index]? = some level := by
    rw [hptr]
    exact (topIndex_spec hw.top level).1
  have hheld := hw.held
  have hspoken := spokenFor_innermost frames hle
  rw [hframes] at hheld
  have hcovered : f.result.quantity.toNat ≤ level.totalQuantity.toNat := by omega
  have htotal := PriceLevel.toNat_fill hcovered
  have hlowered := lowered_lower h hw hptr hlevel hprice hcovered frames
  -- with another loop waiting the level is not used up
  have hleft : frames ≠ [] → spokenFor frames + (f.order.quantity - f.result.quantity).toNat ≤
      (level.fill f.result.quantity).totalQuantity.toNat := by
    intro hothers
    rw [if_neg hothers] at hspoken
    omega
  have hwaiting : frames ≠ [] → Waiting (lower f level { m with frames := frames }) f.order.side
      (level.fill f.result.quantity) := by
    intro hothers
    refine hlowered.waiting hw rfl ?_ hothers (le_trans (Nat.le_add_right _ _) (hleft hothers))
    intro g hg
    rw [hframes]
    exact List.mem_cons_of_mem _ hg
  refine ⟨level, by rw [hptr]; rfl, hlevel, hle, ⟨hlowered.wf h.wf hw.top rfl,
    balanced_lower h.balanced hframes hlevel hprice.symm hcovered, hlowered.positive h.positive,
    hlowered.room h.room, ?_, ?_, fun hothers => ⟨_, _, hwaiting hothers⟩⟩, ?_⟩
  · intro side p
    have hbrought := h.brought side p
    rw [hframes, List.map_cons, List.sum_cons] at hbrought
    simp only [lower, restedQty_cons, Obs.restedAt]
    omega
  · intro side level' result hlog
    rcases List.mem_cons.mp hlog with heq | hlog
    · cases heq
      exact hcovered
    · exact h.noUnderflow side level' result hlog
  · by_cases hothers : frames = []
    · refine .inr fun g hg => ?_
      have hg : g ∈ frames := hg
      rw [hothers] at hg
      exact absurd hg (by simp)
    · exact admits_of_waiting (hwaiting hothers) hlowered.sorted (hleft hothers) _

/-! ## One input -/

theorem steady_idle (h : Steady ordered m) (hframes : m'.frames = m.frames)
    (hbuffers : m'.buffers = m.buffers) {o : Obs} (hlog : m'.log = o :: m.log)
    (hreturn : o.isReturn = true)
    (hladder : ∀ side, m'.book.ladder side = m.book.ladder side ∨
      ∃ p, m'.book.ladder side = (m.book.ladder side).removeIfEmpty p) : Steady ordered m' := by
  -- there is no empty level to drop
  have hsame : ∀ side, m'.book.ladder side = m.book.ladder side := by
    intro side
    rcases hladder side with hsame | ⟨p, hremoved⟩
    · exact hsame
    · rw [hremoved]
      rcases FlatPriceLadder.removeIfEmpty_cases (h.wf.sorted side) p with
        ⟨lo, x, hi, hl, _, hzero, _⟩ | ⟨_, hsame⟩
      · exact absurd hzero (h.positive side x (by rw [hl]; simp))
      · exact hsame
  have hbids : m'.book.bids = m.book.bids := hsame .buy
  have hasks : m'.book.asks = m.book.asks := hsame .sell
  refine ⟨⟨?_, ?_⟩, balanced_idle h.balanced hframes hlog hreturn hladder, ?_, ?_, ?_, ?_, ?_⟩
  · intro side
    rw [hsame]
    exact h.wf.sorted side
  · rw [hbids, hasks]
    exact h.wf.uncrossed
  · intro side
    rw [hsame]
    exact h.positive side
  · intro side
    rw [hsame, hbuffers]
    exact h.room side
  · intro side p
    have hnone : o.restedAt side p = 0 := by
      cases o with
      | rested side' p' q => cases hreturn
      | _ => rfl
    rw [hlog, hframes, restedQty_cons, hnone, Nat.zero_add]
    exact h.brought side p
  · intro side level result hmem
    rw [hlog] at hmem
    rcases List.mem_cons.mp hmem with heq | hmem
    · rw [← heq] at hreturn
      cases hreturn
    · exact h.noUnderflow side level result hmem
  · intro hne
    rw [hframes] at hne
    obtain ⟨side, level, hw⟩ := h.waiting hne
    refine ⟨side, level, hw.of_kept hframes (by rw [hbuffers]) (by rw [hsame]) ?_ rfl
      (Nat.le_refl _)⟩
    rw [hsame]
    exact hw.top

/-- A slot taken changes nothing that the invariant speaks of. -/
theorem steady_take (h : Steady ordered m) (side : Side) (p : Int64) (q : UInt32)
    (type : OrderType) (slot : UInt32) (freeList : SpscQueue UInt32 n.log2) :
    Steady ordered (m.take side p q type slot freeList) :=
  ⟨⟨h.wf.sorted, h.wf.uncrossed⟩, ⟨h.balanced.sorted, h.balanced.balance, h.balanced.reported⟩,
    h.positive, h.room, h.brought, h.noUnderflow, fun hne => by
      obtain ⟨side', level, hw⟩ := h.waiting hne
      exact ⟨side', level, hw.top, hw.frames, hw.held⟩⟩

/-- **One input**, a harmless one if it is a call: it is taken, and keeps the
invariant. -/
theorem steady_step (h : Steady k m) {i : Input}
    (hharmless : ∀ c, i = .call c → m.frames ≠ [] → m.Harmless c)
    (hbound : k + i.quantity < 2 ^ 64) :
    ∃ m', m.step grow i = some m' ∧ Steady (k + i.quantity) m' := by
  cases i with
  | call c =>
    obtain ⟨m', hstep⟩ : ∃ m', m.step grow (.call c) = some m' := by
      cases c <;> exact ⟨_, rfl⟩
    refine ⟨m', hstep, ?_⟩
    cases step_stepped grow hstep with
    | idle hframes hbuffers hlog hreturn hladder =>
      exact Steady.mono (steady_idle h hframes hbuffers hlog hreturn hladder) (Nat.le_add_right _ _)
    | @added side p q type slot freeList htype hpop =>
      refine steady_proceed grow (steady_take h side p q type slot freeList) (Nat.le_refl _)
        hbound ?_
      by_cases hne : m.frames = []
      · refine .inr fun f hf => ?_
        have hf : f ∈ m.frames := hf
        rw [hne] at hf
        exact absurd hf (by simp)
      · rcases hharmless _ rfl hne with hcancel | hfree | hadmits
        · exact absurd hcancel htype
        · rw [SpscQueue.contents_of_pop hpop] at hfree
          cases hfree
        · exact hadmits
  | ret =>
    cases hframes : m.frames with
    | nil => exact ⟨m, by simp only [step, hframes], h⟩
    | cons f frames =>
      obtain ⟨level, hgeneration, hlevel, hle, hlowered, hadmits⟩ := steady_lower h hframes
      have hbrought := h.brought .buy 0
      rw [hframes, List.map_cons, List.sum_cons] at hbrought
      have hsub := UInt32.toNat_sub_of_le _ _ hle
      refine ⟨_, step_ret grow hframes hgeneration hlevel, steady_proceed grow hlowered ?_ hbound
        hadmits⟩
      show k - f.order.quantity.toNat + (f.order.quantity - f.result.quantity).toNat ≤ k + 0
      omega

/-! ## Whole runs -/

/-- **A whole run** of inputs of which each call is harmless where a callback
makes it. -/
theorem survives_of_steady {inputs : List Input} (h : Steady k m)
    (hobeys : m.Obeys grow Harmless inputs) (hbound : k + orderedQty inputs < 2 ^ 64) :
    m.Survives grow inputs := by
  induction inputs generalizing m k with
  | nil =>
    intro before hbefore
    rw [List.prefix_nil.mp hbefore]
    exact ⟨m, rfl, h.noUnderflow, Steady.reported_le h⟩
  | cons i inputs ih =>
    intro before hbefore
    obtain ⟨hcall, hrest⟩ := hobeys
    have hsum : orderedQty (i :: inputs) = i.quantity + orderedQty inputs := by
      simp [orderedQty]
    obtain ⟨m', hstep, hm'⟩ := steady_step grow h hcall (by omega)
    rcases List.prefix_cons_iff.mp hbefore with rfl | ⟨before, rfl, hprior⟩
    · exact ⟨m, rfl, h.noUnderflow, Steady.reported_le h⟩
    · obtain ⟨m'', hrun, hsafe⟩ := ih hm' (hrest m' hstep) (by omega) before hprior
      exact ⟨m'', by rw [run_cons grow hstep]; exact hrun, hsafe⟩

theorem Obeys.imp {allow allow' : Machine n → Call → Prop} (hallow : ∀ m c, allow m c → allow' m c)
    {inputs : List Input} (h : m.Obeys grow allow inputs) : m.Obeys grow allow' inputs := by
  induction inputs generalizing m with
  | nil => trivial
  | cons i inputs ih =>
    exact ⟨fun c hc hne => hallow m c (h.1 c hc hne), fun m' hstep => ih (h.2 m' hstep)⟩

/-- An order of the waiting orders' side that reaches their level and wants
more of it than is not in flight overfills it at once. -/
theorem overtaking_overfills (h : Steady ordered m) {side : Side} {level : PriceLevel}
    (hw : Waiting m side level) {p : Int64} {q : UInt32} (hq : q ≠ 0)
    {type : OrderType} (htype : type ≠ .cancel) (hfree : m.book.freeList.contents ≠ [])
    (hreaches : (Taker.of side).beyond level.priceTicks p = false)
    (hmore : level.totalQuantity.toNat < inFlight side.opposite level.priceTicks m.frames +
      (fillQty q level).toNat) :
    ∃ m', m.step grow (.call (.add side p q type)) = some m' ∧
      restedQty side.opposite level.priceTicks m'.log <
        reportedQty side.opposite level.priceTicks m'.log := by
  obtain ⟨slot, rest, hcont⟩ := List.exists_cons_of_ne_nil hfree
  obtain ⟨freeList, hpop, _⟩ := SpscQueue.pop_of_contents hcont
  have hstep := step_add grow side p q htype hpop
  have hnext : (⟨m.book.nextOrderId, slot, side, p, q⟩ : Activation).next
      ((m.take side p q type slot freeList).book.ladder side.opposite) = some level := by
    rw [ladder_take, next_eq_some]
    exact ⟨UInt32.pos_iff_ne_zero.mpr hq, hw.top, hreaches⟩
  rw [proceed_report grow hnext] at hstep
  refine ⟨_, hstep, ?_⟩
  have hbalance := h.balanced.balance side.opposite level.priceTicks
  rw [qtyAt_top (h.wf.sorted _) hw.top] at hbalance
  simp only [report, take, reportedQty_cons, restedQty_cons, Obs.reportedAt, Obs.restedAt,
    and_self, if_true]
  omega

end Machine

end HftEngine
