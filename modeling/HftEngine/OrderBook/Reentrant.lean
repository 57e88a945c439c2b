import HftEngine.OrderBook.Invariants

/-!
# Callbacks that call back

A matching loop calls `on_match_` between computing a fill and taking it off
the level, and nothing keeps the callback from calling the book again.  Here
the book is a machine that stands still whenever such a callback runs: its
frames are the matching loops that wait for their callbacks, the innermost
first, and an input is what the innermost callback does next, a call on the
book or its return.  Every callback, whatever it reads and decides, is some
sequence of inputs.

A waiting loop keeps a pointer to a level.  It goes on pointing to the same
place of the vector, whatever the nested calls have moved there; past the end
of the vector, or after the vector has moved to new memory, using it is
undefined, and the machine has no next state.

* `Machine.step` — one input; `Machine.run` — a sequence of them;
* `step_stepped` — the inversion lemma: every way in which an input can be
  taken (`Stepped`);
* `exec_of_returning` — with callbacks that return at once the machine does
  what `OrderBook.exec` says.
-/

namespace HftEngine

open Lib

variable {n : PoolSize}

/-- The memory behind a ladder's vector: the number of levels it has room
for, and how often the levels have moved to new memory. -/
structure Buffer where
  capacity : Nat
  generation : Nat
deriving Repr, DecidableEq

/-- The memory of a vector that grows to `size`.  What capacity a full vector
moves to is up to the library (`grow`). -/
def Buffer.fit (grow : Nat → Nat) (buffer : Buffer) (size : Nat) : Buffer :=
  if size ≤ buffer.capacity then buffer
  else ⟨max size (grow buffer.capacity), buffer.generation + 1⟩

/-- A `const PriceLevel*` into a ladder's vector. -/
structure LevelPtr where
  generation : Nat
  index : Nat
deriving Repr, DecidableEq

/-- The variables of an `add_order` that runs its matching loop; `quantity`
is what the loop has not matched. -/
structure Activation where
  orderId : UInt64
  slot : UInt32
  side : Side
  priceTicks : Int64
  quantity : UInt32
deriving Repr, DecidableEq

/-- A matching loop that waits for its callback: what the callback was given,
and the pointer to the level. -/
structure Frame where
  order : Activation
  result : MatchResult
  level : LevelPtr
deriving Repr, DecidableEq

/-- The side whose levels a waiting loop takes. -/
def Frame.sweeps (f : Frame) : Side := f.order.side.opposite

/-- What happens to a book, as its log keeps it. -/
inductive Obs where
  /-- `on_match_` is called for a level of the side. -/
  | matched (side : Side) (result : MatchResult)
  /-- The fill is taken off the level the pointer leads to. -/
  | lowered (side : Side) (level : PriceLevel) (result : MatchResult)
  /-- What is left of an order joins the side. -/
  | rested (side : Side) (priceTicks : Int64) (quantity : UInt32)
  /-- `add_order` returns. -/
  | returned (orderId : UInt64)
  /-- `cancel_order` returns. -/
  | cancelled (ok : Bool)
deriving Repr, DecidableEq

/-- The log is newest first. -/
structure Machine (n : PoolSize) where
  book : OrderBook n
  buffers : Side → Buffer
  frames : List Frame
  log : List Obs

/-- What the innermost callback does next; with no callback running, what the
caller of the book does. -/
inductive Input where
  | call (c : Call)
  | ret
deriving Repr, DecidableEq

/-- A fresh book; both ladders reserve 256 levels. -/
def Machine.new (n : PoolSize) (symbolId : UInt32) : Machine n where
  book := .new n symbolId
  buffers := fun _ => ⟨256, 0⟩
  frames := []
  log := []

/-- The book with another ladder on a side. -/
def OrderBook.withLadder (b : OrderBook n) (side : Side) (l : FlatPriceLadder) : OrderBook n :=
  match side with
  | .buy => { b with bids := l }
  | .sell => { b with asks := l }

/-- The position of the level an order of side `side` takes first. -/
def Side.topIndex (side : Side) (l : FlatPriceLadder) : Nat :=
  match side with
  | .buy => 0
  | .sell => l.levels.length - 1

/-- A write through a pointer to the level at a position. -/
def FlatPriceLadder.writeAt (l : FlatPriceLadder) (index : Nat) (level : PriceLevel) :
    FlatPriceLadder :=
  ⟨l.levels.set index level⟩

/-- The tests at the top of a matching loop: the level it trades with next. -/
def Activation.next (a : Activation) (l : FlatPriceLadder) : Option PriceLevel :=
  if a.quantity > 0 then
    match (Taker.of a.side).top l with
    | none => none
    | some level =>
      if (Taker.of a.side).beyond level.priceTicks a.priceTicks then none else some level
  else none

namespace Machine

variable (grow : Nat → Nat)

/-- The end of `add_order`. -/
def finish (a : Activation) (m : Machine n) : Machine n :=
  let book := m.book.settle a.slot a.side a.priceTicks a.quantity
  { m with
    book := book
    buffers := fun side => (m.buffers side).fit grow (book.ladder side).size
    log := .returned a.orderId ::
      ((if a.quantity = 0 then [] else [.rested a.side a.priceTicks a.quantity]) ++ m.log) }

/-- A matching loop calls `on_match_` for a level. -/
def report (a : Activation) (level : PriceLevel) (m : Machine n) : Machine n :=
  let side := a.side.opposite
  let result : MatchResult := ⟨0, 0, level.priceTicks, fillQty a.quantity level⟩
  let pointer : LevelPtr := ⟨(m.buffers side).generation, a.side.topIndex (m.book.ladder side)⟩
  { m with
    frames := ⟨a, result, pointer⟩ :: m.frames
    log := .matched side result :: m.log }

/-- `add_order` from the top of its matching loop to the next callback or to
its end. -/
def proceed (a : Activation) (m : Machine n) : Machine n :=
  match a.next (m.book.ladder a.side.opposite) with
  | some level => m.report a level
  | none => m.finish grow a

/-- The rest of a matching loop's body, after the callback has returned:
`quantity` and the level are lowered, and the level is dropped if it is
empty.  The price it is looked up by is read through the pointer. -/
def lower (f : Frame) (level : PriceLevel) (m : Machine n) : Machine n :=
  let l := (m.book.ladder f.sweeps).writeAt f.level.index (level.fill f.result.quantity)
  { m with
    book := m.book.withLadder f.sweeps (l.removeIfEmpty level.priceTicks)
    log := .lowered f.sweeps level f.result :: m.log }

/-- What a loop's pointer leads to; `none` where it dangles. -/
def deref (f : Frame) (m : Machine n) : Option PriceLevel :=
  if f.level.generation = (m.buffers f.sweeps).generation then
    (m.book.ladder f.sweeps).levels[f.level.index]?
  else none

/-- The callback of the innermost loop returns. -/
def resume (f : Frame) (m : Machine n) : Option (Machine n) :=
  (m.deref f).map fun level =>
    (m.lower f level).proceed grow { f.order with quantity := f.order.quantity - f.result.quantity }

/-- `add_order` takes a slot and writes its order there. -/
def take (side : Side) (priceTicks : Int64) (quantity : UInt32) (type : OrderType) (slot : UInt32)
    (freeList : SpscQueue UInt32 n.log2) (m : Machine n) : Machine n :=
  let b := m.book.bump
  let order : Order := ⟨m.book.nextOrderId, priceTicks, quantity, 0, b.symbolId, side, type⟩
  { m with book := b.allocate freeList slot order }

/-- `add_order` up to its first callback, or to its end. -/
def add (side : Side) (priceTicks : Int64) (quantity : UInt32) (type : OrderType)
    (m : Machine n) : Machine n :=
  let orderId := m.book.nextOrderId
  let b := m.book.bump
  if type = .cancel then
    { m with
      book := (b.cancelOrder priceTicks.toUInt64).2
      log := .returned orderId :: m.log }
  else
    match b.freeList.pop with
    | (none, _) => { m with book := b, log := .returned 0 :: m.log }
    | (some slot, freeList) =>
      (m.take side priceTicks quantity type slot freeList).proceed grow
        ⟨orderId, slot, side, priceTicks, quantity⟩

/-- One input; `none` where the source uses a pointer that dangles. -/
def step (m : Machine n) : Input → Option (Machine n)
  | .call (.add side priceTicks quantity type) => some (m.add grow side priceTicks quantity type)
  | .call (.cancel orderId) =>
    some { m with
      book := (m.book.cancelOrder orderId).2
      log := .cancelled (m.book.cancelOrder orderId).1 :: m.log }
  | .ret =>
    match m.frames with
    | [] => some m
    | f :: frames => { m with frames := frames }.resume grow f

/-- A sequence of inputs, the first one first. -/
def run (m : Machine n) (inputs : List Input) : Option (Machine n) :=
  inputs.foldlM (step grow) m

end Machine

/-! ## Every way in which an input can be taken -/

/-- `cancel_order` drops at most an empty level. -/
theorem ladder_cancelOrder (b : OrderBook n) (orderId : UInt64) (side : Side) :
    (b.cancelOrder orderId).2.ladder side = b.ladder side ∨
      ∃ p, (b.cancelOrder orderId).2.ladder side = (b.ladder side).removeIfEmpty p := by
  rw [OrderBook.cancelOrder_eq]
  cases b.cancelSlot orderId with
  | none => exact .inl rfl
  | some slot =>
    have hrel := OrderBook.release_spec b slot
    rcases Side.eq_or_opposite (b.orderPool slot.toNat).side side with rfl | rfl
    · exact .inr ⟨_, hrel.own⟩
    · exact .inl hrel.opposite

/-- A call on the book has returned. -/
def Obs.isReturn : Obs → Bool
  | .returned _ => true
  | .cancelled _ => true
  | _ => false

namespace Machine

variable (grow : Nat → Nat) {m m' : Machine n}

/-- The ways in which an input can be taken: no callback is there to return,
a call returns without having traded or rested, an order gets a slot and
starts its loop, a loop goes on after its callback. -/
inductive Stepped (m : Machine n) : Input → Machine n → Prop
  | nothing : m.frames = [] → Stepped m .ret m
  | idle {c : Call} {m' : Machine n} {o : Obs} :
      m'.frames = m.frames → m'.buffers = m.buffers → m'.log = o :: m.log → o.isReturn = true →
      (∀ side, m'.book.ladder side = m.book.ladder side ∨
        ∃ p, m'.book.ladder side = (m.book.ladder side).removeIfEmpty p) → Stepped m (.call c) m'
  | added {side : Side} {p : Int64} {q : UInt32} {type : OrderType} {slot : UInt32}
      {freeList : SpscQueue UInt32 n.log2} :
      type ≠ .cancel → m.book.freeList.pop = (some slot, freeList) →
      Stepped m (.call (.add side p q type)) ((m.take side p q type slot freeList).proceed grow
        ⟨m.book.nextOrderId, slot, side, p, q⟩)
  | resumed {f : Frame} {frames : List Frame} {level : PriceLevel} :
      m.frames = f :: frames → (m.book.ladder f.sweeps).levels[f.level.index]? = some level →
      Stepped m .ret ((lower f level { m with frames := frames }).proceed grow
        { f.order with quantity := f.order.quantity - f.result.quantity })

/-- With a slot at hand, `add_order` takes it and starts its loop. -/
theorem step_add (side : Side) (priceTicks : Int64) (quantity : UInt32) {type : OrderType}
    (htype : type ≠ .cancel) {slot : UInt32} {freeList : SpscQueue UInt32 n.log2}
    (hpop : m.book.freeList.pop = (some slot, freeList)) :
    m.step grow (.call (.add side priceTicks quantity type)) =
      some ((m.take side priceTicks quantity type slot freeList).proceed grow
        ⟨m.book.nextOrderId, slot, side, priceTicks, quantity⟩) := by
  simp only [step, add, if_neg htype, OrderBook.bump, hpop]

/-- Taking a slot leaves the ladders alone. -/
theorem ladder_take (side : Side) (p : Int64) (q : UInt32) (type : OrderType) (slot : UInt32)
    (freeList : SpscQueue UInt32 n.log2) (side' : Side) :
    (m.take side p q type slot freeList).book.ladder side' = m.book.ladder side' := by
  cases side' <;> rfl

/-- Without one, it is refused. -/
theorem step_refused {side : Side} {priceTicks : Int64} {quantity : UInt32} {type : OrderType}
    (htype : type ≠ .cancel) {freeList : SpscQueue UInt32 n.log2}
    (hpop : m.book.freeList.pop = (none, freeList)) :
    m.step grow (.call (.add side priceTicks quantity type)) =
      some { m with book := m.book.bump, log := .returned 0 :: m.log } := by
  simp only [step, add, if_neg htype, OrderBook.bump, hpop]

theorem proceed_report {a : Activation} {level : PriceLevel}
    (h : a.next (m.book.ladder a.side.opposite) = some level) :
    m.proceed grow a = m.report a level := by
  simp only [proceed, h]

theorem proceed_finish {a : Activation} (h : a.next (m.book.ladder a.side.opposite) = none) :
    m.proceed grow a = m.finish grow a := by
  simp only [proceed, h]

/-- A callback returns to a pointer that leads to a level. -/
theorem step_ret {f : Frame} {frames : List Frame} (hframes : m.frames = f :: frames)
    (hgeneration : f.level.generation = (m.buffers f.sweeps).generation) {level : PriceLevel}
    (hlevel : (m.book.ladder f.sweeps).levels[f.level.index]? = some level) :
    m.step grow .ret = some ((lower f level { m with frames := frames }).proceed grow
      { f.order with quantity := f.order.quantity - f.result.quantity }) := by
  simp only [step, hframes, resume, deref, if_pos hgeneration, hlevel, Option.map_some]

/-- The inversion lemma of the machine. -/
theorem step_stepped {i : Input} (h : m.step grow i = some m') : Stepped grow m i m' := by
  have hbump : ∀ side, m.book.bump.ladder side = m.book.ladder side := by
    intro side
    cases side <;> rfl
  cases i with
  | call c =>
    cases c with
    | cancel orderId =>
      cases h
      exact .idle rfl rfl rfl rfl (ladder_cancelOrder m.book orderId)
    | add side p q type =>
      by_cases htype : type = .cancel
      · subst htype
        cases h
        refine .idle rfl rfl rfl rfl ?_ (o := .returned m.book.nextOrderId)
        intro side'
        rw [← hbump side']
        exact ladder_cancelOrder m.book.bump p.toUInt64 side'
      · obtain ⟨item, freeList, hpop⟩ : ∃ item freeList, m.book.freeList.pop = (item, freeList) :=
          ⟨_, _, rfl⟩
        cases item with
        | none =>
          rw [step_refused grow htype hpop] at h
          cases h
          exact .idle rfl rfl rfl rfl fun side' => .inl (hbump side')
        | some slot =>
          rw [step_add grow side p q htype hpop] at h
          cases h
          exact .added htype hpop
  | ret =>
    cases hframes : m.frames with
    | nil =>
      simp only [step, hframes] at h
      cases h
      exact .nothing hframes
    | cons f frames =>
      simp only [step, hframes, resume, Option.map_eq_some_iff] at h
      obtain ⟨level, hderef, rfl⟩ := h
      refine .resumed hframes ?_
      simp only [deref] at hderef
      split at hderef
      · exact hderef
      · cases hderef

end Machine

/-! ## Callbacks that return at once -/

theorem ladder_withLadder (b : OrderBook n) (side : Side) (l : FlatPriceLadder) :
    (b.withLadder side l).ladder side = l := by
  cases side <;> rfl

theorem withLadder_withLadder (b : OrderBook n) (side : Side) (l l' : FlatPriceLadder) :
    (b.withLadder side l).withLadder side l' = b.withLadder side l' := by
  cases side <;> rfl

theorem withLadder_ladder (b : OrderBook n) (side : Side) :
    b.withLadder side (b.ladder side) = b := by
  cases side <;> rfl

/-- A pointer to the first level in the order of a side, and a write through
it. -/
theorem topIndex_spec {side : Side} {l : FlatPriceLadder} {x : PriceLevel}
    (h : (Taker.of side).top l = some x) (y : PriceLevel) :
    l.levels[side.topIndex l]? = some x ∧
      l.writeAt (side.topIndex l) y = (Taker.of side).write l y := by
  cases side with
  | buy =>
    have hl : l.levels.head? = some x := h
    cases hlevels : l.levels with
    | nil =>
      rw [hlevels] at hl
      cases hl
    | cons z rest =>
      rw [hlevels] at hl
      cases hl
      refine ⟨rfl, ?_⟩
      show FlatPriceLadder.mk (l.levels.set 0 y) = ⟨y :: l.levels.tail⟩
      rw [hlevels]
      rfl
  | sell =>
    have hl : l.levels.getLast? = some x := h
    obtain ⟨lo, hlevels⟩ := List.getLast?_eq_some_iff.mp hl
    have hindex : Side.sell.topIndex l = lo.length := by simp [Side.topIndex, hlevels]
    rw [hindex]
    refine ⟨by rw [hlevels, SortedList.getElem?_cut], ?_⟩
    show FlatPriceLadder.mk (l.levels.set lo.length y) = ⟨l.levels.dropLast ++ [y]⟩
    rw [hlevels, SortedList.set_cut, List.dropLast_concat]

/-- The two halves of a loop's body are its body. -/
theorem matchStep_eq_next (a : Activation) (l : FlatPriceLadder) (fills : List MatchResult) :
    matchStep (Taker.of a.side) a.priceTicks ⟨a.quantity, l, fills⟩ =
      (a.next l).map fun level =>
        { quantity := a.quantity - fillQty a.quantity level
          ladder := ((Taker.of a.side).write l (level.fill (fillQty a.quantity level))).removeIfEmpty
            level.priceTicks
          fills := fills ++ [⟨0, 0, level.priceTicks, fillQty a.quantity level⟩] } := by
  unfold matchStep Activation.next
  by_cases hpos : a.quantity > 0
  · simp only [hpos, if_true]
    cases (Taker.of a.side).top l with
    | none => rfl
    | some level =>
      simp only
      split <;> rfl
  · simp only [hpos, if_false]
    rfl

theorem next_eq_some {a : Activation} {l : FlatPriceLadder} {x : PriceLevel} :
    a.next l = some x ↔ a.quantity > 0 ∧ (Taker.of a.side).top l = some x ∧
      (Taker.of a.side).beyond x.priceTicks a.priceTicks = false := by
  unfold Activation.next
  by_cases hpos : a.quantity > 0
  · rw [if_pos hpos]
    cases (Taker.of a.side).top l with
    | none => simp
    | some level =>
      cases hbeyond : (Taker.of a.side).beyond level.priceTicks a.priceTicks with
      | true =>
        simp only [hbeyond, if_true, reduceCtorEq, false_iff]
        rintro ⟨_, heq, hwithin⟩
        cases heq
        rw [hbeyond] at hwithin
        cases hwithin
      | false =>
        simp only [hbeyond, Bool.false_eq_true, if_false, Option.some.injEq]
        constructor
        · rintro rfl
          exact ⟨hpos, rfl, hbeyond⟩
        · exact fun h => h.2.1
  · simp [hpos]

/-- The match results of a log, oldest first. -/
def reportsOf (log : List Obs) : List MatchResult :=
  log.reverse.filterMap fun
    | .matched _ result => some result
    | _ => none

namespace Machine

variable (grow : Nat → Nat) {m : Machine n}

theorem run_cons {i : Input} {inputs : List Input} {m₁ : Machine n}
    (h : m.step grow i = some m₁) : m.run grow (i :: inputs) = m₁.run grow inputs := by
  simp only [run, List.foldlM_cons, h, Option.bind_eq_bind, Option.bind_some]

/-- A callback that returns at once: its loop lowers the level it reported
and goes on. -/
theorem step_ret_report {a : Activation} {level : PriceLevel}
    (h : a.next (m.book.ladder a.side.opposite) = some level) :
    ∃ m₁ : Machine n, (m.report a level).step grow .ret =
        some (m₁.proceed grow { a with quantity := a.quantity - fillQty a.quantity level }) ∧
      m₁.frames = m.frames ∧
      m₁.book = m.book.withLadder a.side.opposite
        (((Taker.of a.side).write (m.book.ladder a.side.opposite)
          (level.fill (fillQty a.quantity level))).removeIfEmpty level.priceTicks) ∧
      reportsOf m₁.log = reportsOf m.log ++ [⟨0, 0, level.priceTicks, fillQty a.quantity level⟩] := by
  obtain ⟨hderef, hwrite⟩ := topIndex_spec (next_eq_some.mp h).2.1 (level.fill (fillQty a.quantity level))
  have hret := step_ret grow (m := m.report a level) rfl rfl hderef
  refine ⟨_, hret, rfl, ?_, ?_⟩
  · simp only [lower, report, Frame.sweeps, hwrite]
  · simp [lower, report, reportsOf]

/-- A whole matching loop whose callbacks return at once. -/
theorem run_loop (fuel : Nat) {a : Activation} {s s' : MatchLoop} (hquantity : s.quantity = a.quantity)
    (hladder : s.ladder = m.book.ladder a.side.opposite)
    (h : loop (matchStep (Taker.of a.side) a.priceTicks) fuel s = some s') :
    ∃ (k : Nat) (m' : Machine n),
      (m.proceed grow a).run grow (List.replicate k .ret) = some m' ∧ m'.frames = m.frames ∧
      m'.book = (m.book.withLadder a.side.opposite s'.ladder).settle a.slot a.side a.priceTicks
        s'.quantity ∧
      ∃ fills, s'.fills = s.fills ++ fills ∧ reportsOf m'.log = reportsOf m.log ++ fills := by
  induction fuel generalizing m a s with
  | zero => cases h
  | succ fuel ih =>
    obtain ⟨quantity, ladder, fills⟩ := s
    simp only at hquantity hladder
    subst hquantity hladder
    have hstep := matchStep_eq_next a (m.book.ladder a.side.opposite) fills
    cases hnext : a.next (m.book.ladder a.side.opposite) with
    | none =>
      -- the loop ends here, and so does `add_order`
      rw [hnext] at hstep
      rw [loop_exit hstep] at h
      cases h
      refine ⟨0, m.finish grow a, by rw [proceed_finish grow hnext]; rfl, rfl, ?_, [], by simp, ?_⟩
      · rw [withLadder_ladder]
        rfl
      · by_cases hzero : a.quantity = 0 <;> simp [finish, reportsOf, hzero]
    | some level =>
      rw [hnext] at hstep
      rw [loop_next hstep] at h
      obtain ⟨m₁, hret, hframes, hbook, hreports⟩ := step_ret_report grow hnext
      obtain ⟨k, m', hrun, hframes', hbook', fills', hfills, hreports'⟩ :=
        ih (m := m₁) (a := { a with quantity := a.quantity - fillQty a.quantity level }) rfl
          (by rw [hbook, ladder_withLadder]) h
      refine ⟨k + 1, m', ?_, hframes'.trans hframes, ?_,
        ⟨0, 0, level.priceTicks, fillQty a.quantity level⟩ :: fills', ?_, ?_⟩
      · rw [proceed_report grow hnext, List.replicate_succ, run_cons grow hret]
        exact hrun
      · rw [hbook', hbook, withLadder_withLadder]
      · rw [hfills, List.append_assoc, List.singleton_append]
      · rw [hreports', hreports, List.append_assoc, List.singleton_append]

/-- **The machine refines the book.** With callbacks that return at once, a
call that returns leaves the book that `exec` says, with the same match
results reported. -/
theorem exec_of_returning (hframes : m.frames = []) {c : Call} {fuel : Nat} {r : Reply}
    {b' : OrderBook n} (h : m.book.exec fuel c = some (r, b')) :
    ∃ (k : Nat) (m' : Machine n), m.run grow (.call c :: List.replicate k .ret) = some m' ∧
      m'.frames = [] ∧ m'.book = b' ∧
      ∀ orderId fills, r = .added orderId fills →
        reportsOf m'.log = reportsOf m.log ++ fills := by
  cases c with
  | cancel orderId =>
    cases h
    exact ⟨0, _, rfl, hframes, rfl, by simp⟩
  | add side p q type =>
    simp only [OrderBook.exec, Option.map_eq_some_iff] at h
    obtain ⟨⟨orderId, fills, b₁⟩, hadd, heq⟩ := h
    cases heq
    by_cases htype : type = .cancel
    · subst htype
      rw [OrderBook.addOrder_cancel] at hadd
      cases hadd
      refine ⟨0, _, rfl, hframes, rfl, ?_⟩
      intro orderId fills hr
      cases hr
      simp [add, reportsOf]
    · obtain ⟨hnil, hpop⟩ | ⟨slot, freeList, hpop, _⟩ := m.book.freeList.pop_eq
      · rw [OrderBook.addOrder_refused htype hnil] at hadd
        cases hadd
        refine ⟨0, _, step_refused grow htype hpop, hframes, rfl, ?_⟩
        intro orderId fills hr
        cases hr
        simp [reportsOf]
      · rw [OrderBook.addOrder_eq side p q htype hpop] at hadd
        obtain ⟨s, hs, heq⟩ := Option.map_eq_some_iff.mp hadd
        cases heq
        obtain ⟨k, m', hrun, hframes', hbook, fills, hfills, hreports⟩ :=
          run_loop grow (m := m.take side p q type slot freeList) fuel
            (a := ⟨m.book.nextOrderId, slot, side, p, q⟩) rfl (by cases side <;> rfl) hs
        refine ⟨k, m', ?_, hframes'.trans hframes, ?_, ?_⟩
        · rw [run_cons grow (step_add grow side p q htype hpop)]
          exact hrun
        · rw [hbook]
          cases side <;> rfl
        · intro orderId fills' hr
          cases hr
          rw [hreports, hfills, List.nil_append]
          rfl

end Machine

end HftEngine
