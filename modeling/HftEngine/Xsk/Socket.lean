import HftEngine.Lib.Ring

/-!
# The AF_XDP socket (`umem.hpp`, `xsk_socket.cpp`)

The frames of the UMEM go round between the free pool of the allocator, the
FILL ring, the kernel and the RX ring.  `fill_rx_ring` moves frames from the
pool to the FILL ring, `process_rx_batch` and the release after it move them
from the RX ring back to the pool; what the kernel does in between are two
steps of its own, one for each ring.

* `Allocator` is what is known of `alloc_frame` and `free_frame`: the first
  takes some frame out of the pool, or finds it empty, the second puts one back.
* `FillRing` is the producer side of the FILL ring: the slot of an entry is its
  index modulo the size of the ring.  The indices run on; that they are 32 bits
  wide is not seen, as the size of a ring divides `2^32`.
* `Producer` is what is known of `xsk_ring_prod__reserve` and
  `xsk_ring_prod__submit`, which are not in the source either: a reservation is
  granted in full, if there is room for it, or not at all, and `submit` publishes
  the next entries.
* The room in the RX ring is the kernel's business: a frame that does not fit
  stays with the kernel.

What the packets say is left out here, and so are the two counters.
-/

namespace HftEngine.Xsk

open Lib

/-- `alloc_frame` and `free_frame` on the states of an allocator; `none` is
`UMEM_INVALID`. -/
structure Allocator (σ : Type) where
  allocFrame : σ → Option (UInt64 × σ)
  freeFrame : σ → UInt64 → σ
  /-- The free pool. -/
  frames : σ → List UInt64
  alloc_none : ∀ {pool}, allocFrame pool = none → frames pool = []
  alloc_some : ∀ {pool addr pool'}, allocFrame pool = some (addr, pool') →
    (frames pool).Perm (addr :: frames pool')
  free_frames : ∀ pool addr, (frames (freeFrame pool addr)).Perm (addr :: frames pool)

/-- A pool that hands out the frame that came back last. -/
def Allocator.stack : Allocator (List UInt64) where
  allocFrame
    | [] => none
    | addr :: pool => some (addr, pool)
  freeFrame pool addr := addr :: pool
  frames pool := pool
  alloc_none {pool} h := by
    cases pool with
    | nil => rfl
    | cons addr pool => cases h
  alloc_some {pool addr pool'} h := by
    cases pool with
    | nil => cases h
    | cons addr pool =>
      cases h
      exact List.Perm.refl _
  free_frames _ _ := List.Perm.refl _

/-- The FILL ring: its entries, the index up to which the producer has reserved
and published, and the index up to which the kernel has consumed. -/
structure FillRing where
  cells : Nat → UInt64
  cachedProd : Nat
  producer : Nat
  consumer : Nat

namespace FillRing

/-- The entries the producer can reserve. -/
def nbFree (size : Nat) (r : FillRing) : Nat := r.consumer + size - r.cachedProd

/-- The entries published and not yet consumed, oldest first. -/
def entries (size : Nat) (r : FillRing) : List UInt64 :=
  Ring.elems r.cells size r.consumer (r.producer - r.consumer)

end FillRing

/-- `xsk_ring_prod__reserve` and `xsk_ring_prod__submit` on a FILL ring of a given
size.  The first returns the number granted, the index variable and the ring. -/
structure Producer where
  ringSize : Nat
  reserve : Nat → Nat → FillRing → Nat × Nat × FillRing
  submit : Nat → FillRing → FillRing
  /-- All or nothing. -/
  reserve_spec : ∀ n idx r, reserve n idx r = (0, idx, r) ∨
    n ≤ r.nbFree ringSize ∧
      reserve n idx r = (n, r.cachedProd, { r with cachedProd := r.cachedProd + n })
  /-- Whatever the entries hold. -/
  submit_spec : ∀ n r, submit n r = { r with producer := r.producer + n }

/-- The library's: a reservation is granted if there is room. -/
def Producer.libxdp (size : Nat) : Producer where
  ringSize := size
  reserve n idx r :=
    if n ≤ r.nbFree size then (n, r.cachedProd, { r with cachedProd := r.cachedProd + n })
    else (0, idx, r)
  submit n r := { r with producer := r.producer + n }
  reserve_spec n idx r := by
    by_cases hroom : n ≤ r.nbFree size
    · exact .inr ⟨hroom, if_pos hroom⟩
    · exact .inl (if_neg hroom)
  submit_spec _ _ := rfl

/-- The FILL ring, `config_.num_frames`, and whether `get_frame` returns a pointer
for an address. -/
structure Config extends Producer where
  numFrames : Nat
  getFrame : UInt64 → Bool

/-- The frames in all places, and the member `fill_idx_`. -/
structure Socket (σ : Type) where
  pool : σ
  fill : FillRing
  fillIdx : Nat
  kernel : List UInt64
  rx : List UInt64

section Calls

variable {σ : Type} (A : Allocator σ) (cfg : Config)

/-- The loop of `fill_rx_ring`, `n` rounds before its end: the number of frames
written, the pool and the entries. -/
def fillLoop (idx : Nat) : Nat → Nat → σ → (Nat → UInt64) → Nat × σ × (Nat → UInt64)
  | 0, i, pool, cells => (i, pool, cells)
  | n + 1, i, pool, cells =>
    match A.allocFrame pool with
    | none => (i, pool, cells)
    | some (addr, pool) =>
      fillLoop idx n (i + 1) pool (Function.update cells ((idx + i) % cfg.ringSize) addr)

/-- What a call of `fill_rx_ring` reserved, wrote and submitted. -/
structure Filled where
  reserved : Nat
  written : Nat
  submitted : Nat
deriving Repr, DecidableEq

/-- `needWakeup` is what `xsk_prod_ring_need_wakeup` returns. -/
def fillRxRing (needWakeup : Bool) (s : Socket σ) : Filled × Socket σ :=
  let (reserved, idx, ring) :=
    if needWakeup then (0, s.fillIdx, s.fill) else cfg.reserve 32 s.fillIdx s.fill
  let nFree := if needWakeup then cfg.numFrames else reserved
  if nFree = 0 then (⟨reserved, 0, 0⟩, { s with fill := ring, fillIdx := idx })
  else
    let (written, pool, cells) := fillLoop A cfg idx nFree 0 s.pool ring.cells
    (⟨reserved, written, nFree⟩,
      { s with pool := pool, fill := cfg.submit nFree { ring with cells := cells }, fillIdx := idx })

/-- The frames of a batch go back to the pool, but for those without data. -/
def processRxBatch (pool : σ) (batch : List UInt64) : σ :=
  batch.foldl (fun pool addr => if cfg.getFrame addr then A.freeFrame pool addr else pool) pool

/-- The second half of a round of `run_rx_loop`: at most 32 frames are peeked,
processed and released. -/
def pollRx (s : Socket σ) : Socket σ :=
  { s with pool := processRxBatch A cfg s.pool (s.rx.take 32), rx := s.rx.drop 32 }

/-- The kernel takes the oldest entry of the FILL ring. -/
def consume (s : Socket σ) : Option (Socket σ) :=
  if s.fill.consumer < s.fill.producer then
    some { s with
      fill := { s.fill with consumer := s.fill.consumer + 1 }
      kernel := s.kernel ++ [s.fill.cells (s.fill.consumer % cfg.ringSize)] }
  else none

/-- The kernel passes the `i`-th of its frames on to the RX ring. -/
def deliver (i : Nat) (s : Socket σ) : Option (Socket σ) :=
  match s.kernel[i]? with
  | none => none
  | some addr => some { s with kernel := s.kernel.eraseIdx i, rx := s.rx ++ [addr] }

inductive Act where
  | fill (needWakeup : Bool)
  | consume
  | deliver (i : Nat)
  | poll
deriving Repr, DecidableEq

def step (s : Socket σ) : Act → Option (Socket σ)
  | .fill needWakeup => some (fillRxRing A cfg needWakeup s).2
  | .consume => consume cfg s
  | .deliver i => deliver i s
  | .poll => some (pollRx A cfg s)

/-- A socket just created: all frames in the pool, the rings empty. -/
def Socket.new (pool : σ) (cells : Nat → UInt64) : Socket σ :=
  ⟨pool, ⟨cells, 0, 0, 0⟩, 0, [], []⟩

/-- `Run start h s`: calls and steps of the kernel, in any order, lead from
`start` to `s`; `h` has each of them with the state before it, newest first. -/
inductive Run (start : Socket σ) : List (Socket σ × Act) → Socket σ → Prop
  | start : Run start [] start
  | step {h : List (Socket σ × Act)} {s s' : Socket σ} {a : Act} :
      Run start h s → step A cfg s a = some s' → Run start ((s, a) :: h) s'

end Calls

/-! ## What the calls do -/

section Specs

variable {σ : Type} {A : Allocator σ} {cfg : Config}

section Loops

variable (A cfg)

/-- The loop of `fill_rx_ring` writes as many frames as the pool has, up to the
number asked for. -/
theorem fillLoop_written (idx n i : Nat) (pool : σ) (cells : Nat → UInt64) :
    (fillLoop A cfg idx n i pool cells).1 = i + min n (A.frames pool).length := by
  induction n generalizing i pool cells with
  | zero =>
    rw [Nat.zero_min]
    rfl
  | succ n ih =>
    unfold fillLoop
    cases halloc : A.allocFrame pool with
    | none =>
      rw [A.alloc_none halloc]
      rfl
    | some r =>
      have hlen := (A.alloc_some halloc).length_eq
      rw [List.length_cons] at hlen
      rw [ih, hlen]
      omega

/-- The frames written are taken from the pool and stand behind the entries
already there. -/
theorem fillLoop_spec (idx n i tail len : Nat) (pool : σ) (cells : Nat → UInt64)
    (hidx : idx + i = tail + len) (hroom : len + n ≤ cfg.ringSize) :
    ∃ taken : List UInt64, ∃ pool' cells',
      fillLoop A cfg idx n i pool cells = (i + taken.length, pool', cells') ∧
      (A.frames pool).Perm (taken ++ A.frames pool') ∧
      Ring.elems cells' cfg.ringSize tail (len + taken.length) =
        Ring.elems cells cfg.ringSize tail len ++ taken := by
  induction n generalizing i len pool cells with
  | zero => exact ⟨[], pool, cells, rfl, List.Perm.refl _, (List.append_nil _).symm⟩
  | succ n ih =>
    unfold fillLoop
    cases halloc : A.allocFrame pool with
    | none => exact ⟨[], pool, cells, rfl, List.Perm.refl _, (List.append_nil _).symm⟩
    | some r =>
      obtain ⟨addr, pool₁⟩ := r
      obtain ⟨taken, pool', cells', hloop, hrest, hcells⟩ := ih (i + 1) (len + 1) pool₁
        (Function.update cells ((idx + i) % cfg.ringSize) addr) (by omega) (by omega)
      refine ⟨addr :: taken, pool', cells', ?_, (A.alloc_some halloc).trans (hrest.cons addr), ?_⟩
      · rw [List.length_cons, Nat.add_comm taken.length, ← Nat.add_assoc]
        exact hloop
      · have hpush := Ring.elems_push cells tail (by omega : len < cfg.ringSize) addr
        rw [← hidx] at hpush
        rw [List.length_cons, Nat.add_comm taken.length, ← Nat.add_assoc, hcells, hpush,
          List.append_assoc, List.singleton_append]

/-- The frames of a batch that have data are back in the pool. -/
theorem frames_processRxBatch (pool : σ) (batch : List UInt64) :
    (A.frames (processRxBatch A cfg pool batch)).Perm
      (batch.filter cfg.getFrame ++ A.frames pool) := by
  induction batch generalizing pool with
  | nil => exact List.Perm.refl _
  | cons addr batch ih =>
    have hstep : processRxBatch A cfg pool (addr :: batch) = processRxBatch A cfg
        (if cfg.getFrame addr then A.freeFrame pool addr else pool) batch := rfl
    rw [hstep]
    cases hdata : cfg.getFrame addr with
    | true =>
      rw [List.filter_cons_of_pos hdata, if_pos rfl]
      -- the frame goes to the front of the pool, the batch before it
      exact (ih _).trans (((A.free_frames pool addr).append_left _).trans List.perm_middle)
    | false =>
      rw [List.filter_cons_of_neg (by simp [hdata]), if_neg Bool.false_ne_true]
      exact ih pool

end Loops

/-- `fill_rx_ring` when the ring asks to be woken up: nothing is reserved, and
the entries submitted are as many as the UMEM has frames. -/
theorem filled_wakeup (s : Socket σ) :
    (fillRxRing A cfg true s).1.reserved = 0 ∧
      (fillRxRing A cfg true s).1.submitted = cfg.numFrames := by
  unfold fillRxRing
  by_cases hzero : cfg.numFrames = 0
  · simp [hzero]
  · simp [hzero]

/-- Without frames there is nothing to do. -/
theorem fillRxRing_idle {s : Socket σ} (hzero : cfg.numFrames = 0) :
    fillRxRing A cfg true s = (⟨0, 0, 0⟩, s) := by
  simp [fillRxRing, hzero]

/-- The reservation of `fill_rx_ring` is granted. -/
def Granted (cfg : Config) (s : Socket σ) : Prop := (cfg.reserve 32 s.fillIdx s.fill).1 ≠ 0

theorem reserve_refused {s : Socket σ} (hno : ¬ Granted cfg s) :
    cfg.reserve 32 s.fillIdx s.fill = (0, s.fillIdx, s.fill) := by
  rcases cfg.reserve_spec 32 s.fillIdx s.fill with hrefused | ⟨_, hgranted⟩
  · exact hrefused
  · refine absurd ?_ hno
    rw [Granted, hgranted]
    exact Nat.succ_ne_zero 31

theorem reserve_granted {s : Socket σ} (hgranted : Granted cfg s) :
    32 ≤ s.fill.nbFree cfg.ringSize ∧ cfg.reserve 32 s.fillIdx s.fill =
      (32, s.fill.cachedProd, { s.fill with cachedProd := s.fill.cachedProd + 32 }) := by
  rcases cfg.reserve_spec 32 s.fillIdx s.fill with hrefused | hroom
  · rw [Granted, hrefused] at hgranted
    exact absurd rfl hgranted
  · exact hroom

/-- `fill_rx_ring` when nothing is reserved. -/
theorem fillRxRing_refused {s : Socket σ} (hno : ¬ Granted cfg s) :
    fillRxRing A cfg false s = (⟨0, 0, 0⟩, s) := by
  simp [fillRxRing, reserve_refused hno]

/-- `fill_rx_ring` when 32 entries are reserved. -/
theorem fillRxRing_granted {s : Socket σ} (hgranted : Granted cfg s) :
    fillRxRing A cfg false s =
      (⟨32, (fillLoop A cfg s.fill.cachedProd 32 0 s.pool s.fill.cells).1, 32⟩,
        { s with
          pool := (fillLoop A cfg s.fill.cachedProd 32 0 s.pool s.fill.cells).2.1
          fill := ⟨(fillLoop A cfg s.fill.cachedProd 32 0 s.pool s.fill.cells).2.2,
            s.fill.cachedProd + 32, s.fill.producer + 32, s.fill.consumer⟩
          fillIdx := s.fill.cachedProd }) := by
  simp [fillRxRing, (reserve_granted hgranted).2, cfg.submit_spec]

/-- A call that the pool can serve: 32 frames of the pool stand behind the
entries that were there. -/
theorem fillRxRing_served {s : Socket σ} (hpublished : s.fill.cachedProd = s.fill.producer)
    (hconsumed : s.fill.consumer ≤ s.fill.producer) (hgranted : Granted cfg s)
    (hpool : 32 ≤ (A.frames s.pool).length) :
    ∃ (taken : List UInt64) (pool : σ) (cells : Nat → UInt64),
      fillRxRing A cfg false s = (⟨32, 32, 32⟩,
        ⟨pool, ⟨cells, s.fill.producer + 32, s.fill.producer + 32, s.fill.consumer⟩,
          s.fill.producer, s.kernel, s.rx⟩) ∧
      (A.frames s.pool).Perm (taken ++ A.frames pool) ∧
      Ring.elems cells cfg.ringSize s.fill.consumer (s.fill.producer + 32 - s.fill.consumer) =
        s.fill.entries cfg.ringSize ++ taken := by
  have hroom := (reserve_granted hgranted).1
  rw [fillRxRing_granted hgranted]
  unfold FillRing.nbFree at hroom
  obtain ⟨taken, pool, cells, hloop, hrest, hcells⟩ := fillLoop_spec A cfg s.fill.cachedProd 32 0
    s.fill.consumer (s.fill.producer - s.fill.consumer) s.pool s.fill.cells (by omega) (by omega)
  have hwritten := fillLoop_written A cfg s.fill.cachedProd 32 0 s.pool s.fill.cells
  rw [hloop, Nat.min_eq_left hpool] at hwritten
  simp only [Nat.zero_add] at hwritten
  refine ⟨taken, pool, cells, ?_, hrest, ?_⟩
  · rw [hloop, hpublished]
    simp only [Nat.zero_add, hwritten]
  · rw [show s.fill.producer + 32 - s.fill.consumer =
      s.fill.producer - s.fill.consumer + taken.length by omega, hcells]
    rfl

end Specs

end HftEngine.Xsk
