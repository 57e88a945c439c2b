import HftEngine.Xsk.Socket

/-!
# Who owns a frame

Every frame of the UMEM should be in exactly one place: in the free pool, in
the FILL ring, with the kernel or in the RX ring (`Exclusive`).  Two things can
break this.  `fill_rx_ring` submits as many entries as it set out to, also if
the pool ran dry before it had written them all, or if it never reserved any:
what the kernel then reads are old entries.  And `process_rx_batch` does not
free a frame for which `get_frame` has no pointer.

* `filledExactly_iff` — when a call submits what it reserved and wrote;
* `inv_step`, `inv_run` — as long as neither happens (`Sound`), the frames of
  all places together are the frames of the UMEM;
* `not_exclusive_of_skipped` — a frame skipped by `process_rx_batch` is lost;
* `frames_owned_iff` — over a whole run, frames are owned exactly if neither
  happens.
-/

namespace HftEngine.Xsk

open Lib

variable {σ : Type} (A : Allocator σ) (cfg : Config)

/-- The frames in all four places. -/
def Socket.frames (s : Socket σ) : List UInt64 :=
  A.frames s.pool ++ (s.fill.entries cfg.ringSize ++ (s.kernel ++ s.rx))

/-- Each of the frames of the UMEM is in exactly one place, once. -/
def Exclusive (umem : List UInt64) (s : Socket σ) : Prop :=
  ∀ addr ∈ umem, (s.frames A cfg).count addr = 1

/-- A call of `fill_rx_ring` in the state `s` submits what it reserved, and has
written all of it. -/
def FilledExactly (needWakeup : Bool) (s : Socket σ) : Prop :=
  (fillRxRing A cfg needWakeup s).1.submitted = (fillRxRing A cfg needWakeup s).1.reserved ∧
    (fillRxRing A cfg needWakeup s).1.written = (fillRxRing A cfg needWakeup s).1.reserved

/-- The ring does not ask to be woken up (or there is no frame at all), the pool
can serve a reservation that is granted, and there is data for each frame
processed. -/
def Sound (s : Socket σ) : Act → Prop
  | .fill true => cfg.numFrames = 0
  | .fill false => Granted cfg s → 32 ≤ (A.frames s.pool).length
  | .poll => ∀ addr ∈ s.rx.take 32, cfg.getFrame addr = true
  | _ => True

/-- What holds as long as every step is sound: no frame is lost or doubled, and
the producer has published what it has reserved. -/
structure Inv (umem : List UInt64) (s : Socket σ) : Prop where
  frames : (s.frames A cfg).Perm umem
  published : s.fill.cachedProd = s.fill.producer
  consumed : s.fill.consumer ≤ s.fill.producer
  room : s.fill.producer ≤ s.fill.consumer + cfg.ringSize

variable {A cfg} {s s' : Socket σ}

theorem filledExactly_iff (needWakeup : Bool) :
    FilledExactly A cfg needWakeup s ↔ Sound A cfg s (.fill needWakeup) := by
  unfold FilledExactly
  cases needWakeup with
  | true =>
    constructor
    · rintro ⟨hsubmitted, _⟩
      rw [(filled_wakeup s).1, (filled_wakeup s).2] at hsubmitted
      exact hsubmitted
    · intro hzero
      have hzero : cfg.numFrames = 0 := hzero
      rw [fillRxRing_idle hzero]
      exact ⟨rfl, rfl⟩
  | false =>
    by_cases hgranted : Granted cfg s
    · rw [fillRxRing_granted hgranted]
      simp only [Sound, hgranted, fillLoop_written, true_and, forall_const]
      omega
    · rw [fillRxRing_refused hgranted]
      simp [Sound, hgranted]

/-! ## Frames are kept together -/

theorem inv_new {pool : σ} (cells : Nat → UInt64) :
    Inv A cfg (A.frames pool) (.new pool cells) := by
  refine ⟨?_, rfl, Nat.le_refl 0, Nat.zero_le _⟩
  simp [Socket.frames, Socket.new, FillRing.entries]

section Steps

variable {umem : List UInt64}

theorem inv_fill (hinv : Inv A cfg umem s) (needWakeup : Bool)
    (hsound : Sound A cfg s (.fill needWakeup)) :
    Inv A cfg umem (fillRxRing A cfg needWakeup s).2 := by
  obtain ⟨hframes, hpublished, hconsumed, hsize⟩ := hinv
  cases needWakeup with
  | true =>
    rw [fillRxRing_idle hsound]
    exact ⟨hframes, hpublished, hconsumed, hsize⟩
  | false =>
    by_cases hgranted : Granted cfg s
    · obtain ⟨taken, pool, cells, hfill, hrest, hentries⟩ :=
        fillRxRing_served hpublished hconsumed hgranted (hsound hgranted)
      have hroom := (reserve_granted hgranted).1
      unfold FillRing.nbFree at hroom
      rw [hfill]
      refine ⟨?_, rfl, hconsumed.trans (Nat.le_add_right _ 32), ?_⟩
      · refine List.Perm.trans (List.perm_iff_count.mpr fun addr => ?_) hframes
        have hcount := hrest.count_eq addr
        rw [List.count_append] at hcount
        simp only [Socket.frames, FillRing.entries] at hentries ⊢
        simp only [hentries, List.count_append]
        omega
      · show s.fill.producer + 32 ≤ s.fill.consumer + cfg.ringSize
        omega
    · rw [fillRxRing_refused hgranted]
      exact ⟨hframes, hpublished, hconsumed, hsize⟩

theorem inv_consume (hinv : Inv A cfg umem s) (h : consume cfg s = some s') :
    Inv A cfg umem s' := by
  obtain ⟨hframes, hpublished, hconsumed, hsize⟩ := hinv
  unfold consume at h
  by_cases hlt : s.fill.consumer < s.fill.producer
  · rw [if_pos hlt] at h
    cases h
    have hlen : s.fill.producer - s.fill.consumer =
        s.fill.producer - (s.fill.consumer + 1) + 1 := by omega
    refine ⟨?_, hpublished, hlt, ?_⟩
    · refine List.Perm.trans (List.perm_iff_count.mpr fun addr => ?_) hframes
      simp only [Socket.frames, FillRing.entries, hlen, Ring.elems_cons, List.count_append,
        List.count_cons, List.count_nil]
      omega
    · show s.fill.producer ≤ s.fill.consumer + 1 + cfg.ringSize
      omega
  · rw [if_neg hlt] at h
    cases h

theorem inv_deliver (hinv : Inv A cfg umem s) {i : Nat}
    (h : deliver i s = some s') : Inv A cfg umem s' := by
  unfold deliver at h
  cases hi : s.kernel[i]? with
  | none =>
    rw [hi] at h
    cases h
  | some addr =>
    rw [hi] at h
    cases h
    obtain ⟨hlt, hget⟩ := List.getElem?_eq_some_iff.mp hi
    have hkernel := List.getElem_cons_eraseIdx_perm hlt
    rw [hget] at hkernel
    refine ⟨?_, hinv.published, hinv.consumed, hinv.room⟩
    refine List.Perm.trans (List.perm_iff_count.mpr fun addr' => ?_) hinv.frames
    have hcount := hkernel.count_eq addr'
    rw [List.count_cons] at hcount
    simp only [Socket.frames, List.count_append, List.count_singleton]
    omega

variable (A cfg s) in
/-- The frames after a poll, counted. -/
theorem count_pollRx (addr : UInt64) :
    ((pollRx A cfg s).frames A cfg).count addr + (s.rx.take 32).count addr =
      (s.frames A cfg).count addr + ((s.rx.take 32).filter cfg.getFrame).count addr := by
  have hpool := (frames_processRxBatch A cfg s.pool (s.rx.take 32)).count_eq addr
  have hrx : s.rx.count addr = (s.rx.take 32).count addr + (s.rx.drop 32).count addr := by
    rw [← List.count_append, List.take_append_drop]
  rw [List.count_append] at hpool
  simp only [Socket.frames, pollRx, List.count_append]
  omega

theorem inv_poll (hinv : Inv A cfg umem s) (hsound : Sound A cfg s .poll) :
    Inv A cfg umem (pollRx A cfg s) := by
  refine ⟨?_, hinv.published, hinv.consumed, hinv.room⟩
  refine List.Perm.trans (List.perm_iff_count.mpr fun addr => ?_) hinv.frames
  have hcount := count_pollRx A cfg s addr
  rw [List.filter_eq_self.mpr hsound] at hcount
  omega

theorem inv_step (hinv : Inv A cfg umem s) {a : Act} (hsound : Sound A cfg s a)
    (h : step A cfg s a = some s') : Inv A cfg umem s' := by
  cases a with
  | fill needWakeup =>
    cases h
    exact inv_fill hinv needWakeup hsound
  | consume => exact inv_consume hinv h
  | deliver i => exact inv_deliver hinv h
  | poll =>
    cases h
    exact inv_poll hinv hsound

theorem Inv.exclusive (hinv : Inv A cfg umem s) (hnodup : umem.Nodup) :
    Exclusive A cfg umem s := by
  intro addr haddr
  rw [hinv.frames.count_eq]
  exact List.count_eq_one_of_mem hnodup haddr

/-- A frame that is processed without data is in no place afterwards. -/
theorem not_exclusive_of_skipped (hinv : Inv A cfg umem s) (hnodup : umem.Nodup)
    {addr : UInt64} (hrx : addr ∈ s.rx.take 32) (hdata : cfg.getFrame addr = false) :
    ¬ Exclusive A cfg umem (pollRx A cfg s) := by
  intro hexclusive
  have hmem : addr ∈ umem := by
    refine hinv.frames.subset ?_
    have hin : addr ∈ s.rx := List.mem_of_mem_take hrx
    simp [Socket.frames, hin]
  have hbefore := hinv.exclusive hnodup addr hmem
  have hafter := hexclusive addr hmem
  have hcount := count_pollRx A cfg s addr
  have hskip : ((s.rx.take 32).filter cfg.getFrame).count addr = 0 :=
    List.count_eq_zero.mpr fun hin => by simp [hdata] at hin
  have hpos := List.count_pos_iff.mpr hrx
  omega

end Steps

/-! ## Whole runs -/

section Runs

variable {pool : σ} {cells : Nat → UInt64} {h : List (Socket σ × Act)}

theorem inv_run (hrun : Run A cfg (.new pool cells) h s)
    (hsound : ∀ e ∈ h, Sound A cfg e.1 e.2) : Inv A cfg (A.frames pool) s := by
  induction hrun with
  | start => exact inv_new cells
  | step _ hstep ih =>
    obtain ⟨hlast, hbefore⟩ := List.forall_mem_cons.mp hsound
    exact inv_step (ih hbefore) hlast hstep

/-- **Frames are owned exactly if the pool never runs dry.** From a new socket,
over any order of calls and steps of the kernel: every frame is in exactly one
place all the time and every `fill_rx_ring` submits what it reserved and wrote,
if and only if the FILL ring never asks to be woken up, the pool has 32 frames
whenever 32 entries are reserved, and no frame is processed for which
`get_frame` has no pointer. -/
theorem frames_owned_iff (hnodup : (A.frames pool).Nodup)
    (hrun : Run A cfg (.new pool cells) h s) :
    ((Exclusive A cfg (A.frames pool) s ∧ ∀ e ∈ h, Exclusive A cfg (A.frames pool) e.1) ∧
      ∀ e ∈ h, ∀ needWakeup, e.2 = .fill needWakeup → FilledExactly A cfg needWakeup e.1) ↔
    ∀ e ∈ h, Sound A cfg e.1 e.2 := by
  constructor
  · induction hrun with
    | start => exact fun _ => List.forall_mem_nil _
    | @step h s s' a hrun hstep ih =>
      rintro ⟨⟨hexclusive, hstates⟩, hfills⟩
      obtain ⟨hlast, hbefore⟩ := List.forall_mem_cons.mp hstates
      obtain ⟨hfill, hfillsBefore⟩ := List.forall_mem_cons.mp hfills
      have hsound := ih ⟨⟨hlast, hbefore⟩, hfillsBefore⟩
      refine List.forall_mem_cons.mpr ⟨?_, hsound⟩
      cases a with
      | fill needWakeup => exact (filledExactly_iff needWakeup).mp (hfill needWakeup rfl)
      | consume | deliver => trivial
      | poll =>
        cases hstep
        intro addr hrx
        by_contra hdata
        rw [Bool.not_eq_true] at hdata
        exact not_exclusive_of_skipped (inv_run hrun hsound) hnodup hrx hdata hexclusive
  · intro hsound
    refine ⟨⟨(inv_run hrun hsound).exclusive hnodup, ?_⟩, ?_⟩
    · induction hrun with
      | start => exact List.forall_mem_nil _
      | step hrun _ ih =>
        obtain ⟨_, hbefore⟩ := List.forall_mem_cons.mp hsound
        exact List.forall_mem_cons.mpr ⟨(inv_run hrun hbefore).exclusive hnodup, ih hbefore⟩
    · rintro ⟨t, a⟩ he needWakeup rfl
      exact (filledExactly_iff needWakeup).mpr (hsound _ he)

/-- 32 frames, no more than one call of `fill_rx_ring` takes. -/
def framePool : List UInt64 := (List.range 32).map fun i => UInt64.ofNat (2048 * i)

theorem nodup_framePool : framePool.Nodup := by
  refine List.Nodup.map_on (fun i hi j hj heq => ?_) List.nodup_range
  have hnat := congrArg UInt64.toNat heq
  rw [List.mem_range] at hi hj
  rw [UInt64.toNat_ofNat_of_lt' (by rw [UInt64.size]; omega),
    UInt64.toNat_ofNat_of_lt' (by rw [UInt64.size]; omega)] at hnat
  omega

/-- A ring of 64 entries for 32 frames. -/
def smallRing : Config := ⟨.libxdp 64, 32, fun _ => true⟩

/-- One packet: a frame goes once round. -/
theorem frames_owned_one_packet :
    ∃ (h : List (Socket (List UInt64) × Act)) (s : Socket (List UInt64)),
      Run .stack smallRing (.new framePool fun _ => 0) h s ∧
      h.map Prod.snd = [.poll, .deliver 0, .consume, .fill false] ∧
      Exclusive .stack smallRing framePool s := by
  have hrun : Run .stack smallRing (.new framePool fun _ => 0) _ _ :=
    .step (a := .poll) (.step (a := .deliver 0) (.step (a := .consume)
      (.step (a := .fill false) .start rfl) rfl) rfl) rfl
  refine ⟨_, _, hrun, rfl, ((frames_owned_iff nodup_framePool hrun).mpr ?_).1.1⟩
  refine List.forall_mem_cons.mpr ⟨fun _ _ => rfl, List.forall_mem_cons.mpr ⟨trivial,
    List.forall_mem_cons.mpr ⟨trivial, List.forall_mem_cons.mpr ⟨?_, List.forall_mem_nil _⟩⟩⟩⟩
  exact fun _ => Nat.le_refl 32

/-- A UMEM of a single frame. -/
def oneFrame : Config := ⟨.libxdp 2048, 1, fun _ => true⟩

/-- With a single frame and a ring whose memory is zeroed, the first call of
`fill_rx_ring` writes one entry and submits 32, all of which name the frame at
address 0. -/
theorem dry_pool_submits :
    ∃ (h : List (Socket (List UInt64) × Act)) (s : Socket (List UInt64)),
      Run .stack oneFrame (.new [0] fun _ => 0) h s ∧ h.map Prod.snd = [.fill false] ∧
      (fillRxRing .stack oneFrame false (.new [0] fun _ => 0)).1 = ⟨32, 1, 32⟩ ∧
      s.fill.entries 2048 = List.replicate 32 0 ∧ ¬ Exclusive .stack oneFrame [0] s := by
  have hgranted : Granted oneFrame (Socket.new ([0] : List UInt64) fun _ => 0) :=
    Nat.succ_ne_zero 31
  have hfill : fillRxRing .stack oneFrame false (.new [0] fun _ => 0) = _ :=
    fillRxRing_granted hgranted
  -- the one entry written was 0 before, like all others
  have hcells : (fillRxRing .stack oneFrame false (.new [0] fun _ => 0)).2.fill.cells =
      fun _ => 0 := by
    rw [hfill]
    exact Function.update_eq_self 0 fun _ => 0
  have hentries : (fillRxRing .stack oneFrame false (.new [0] fun _ => 0)).2.fill.entries 2048 =
      List.replicate 32 0 := by
    rw [FillRing.entries, hcells, hfill]
    exact List.map_const'
  refine ⟨_, _, .step (a := .fill false) .start rfl, rfl, by rw [hfill]; rfl, hentries, ?_⟩
  intro hexclusive
  have hcount := hexclusive 0 List.mem_cons_self
  rw [Socket.frames, List.count_append, List.count_append] at hcount
  have hmany := congrArg (List.count 0) hentries
  rw [List.count_replicate_self] at hmany
  have hsize : oneFrame.ringSize = 2048 := rfl
  rw [hsize] at hcount
  omega

end Runs

end HftEngine.Xsk
