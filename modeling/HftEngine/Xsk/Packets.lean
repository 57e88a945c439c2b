import HftEngine.Fix.Grammar
import HftEngine.Xsk.Ownership

/-!
# What the packets say (`process_rx_batch`)

The socket of `Xsk.Socket` with the bytes of its frames.  The kernel writes a
packet to one of its frames and passes the frame on with the packet's length;
`process_rx_batch` parses what the frame holds by then, tells the callback or
counts an error, and frees the frame.

`fix::parse` with three arguments, which the source calls and does not define,
is a parameter: what it makes of a buffer, if anything.  The time stamps handed
to the callback are left out.

* `packets_received` — as long as frames are owned (`Sound`), packets reach the
  parser in the order of their arrival, each once and as the kernel wrote it;
* `raw_frames_rejected` — what reaches it is the whole Ethernet frame: if the
  address of the interface does not begin with a digit or `=`, no parser that
  accepts only what `parse` finds valid ever accepts a packet.
-/

namespace HftEngine.Xsk

open Lib

variable {σ μ : Type}

abbrev Packet := List UInt8

/-- What `process_rx_batch` has told: the messages handed to `on_fix_message_`,
oldest first, and the two counters. -/
structure Told (μ : Type) where
  messages : List μ
  pktCount : UInt64
  parseErrors : UInt64

/-- The socket, the bytes from the address of each frame on, and the lengths in
the descriptors of the RX ring. -/
structure Receiver (σ μ : Type) where
  socket : Socket σ
  memory : UInt64 → List UInt8
  lens : List Nat
  told : Told μ

def Receiver.new (pool : σ) (cells : Nat → UInt64) (memory : UInt64 → List UInt8) :
    Receiver σ μ :=
  ⟨.new pool cells, memory, [], ⟨[], 0, 0⟩⟩

section Calls

variable (A : Allocator σ) (cfg : Config) (parse : List UInt8 → Option μ)

/-- What is told of one buffer. -/
def tell (told : Told μ) (buf : List UInt8) : Told μ :=
  match parse buf with
  | some msg => { told with messages := told.messages ++ [msg], pktCount := told.pktCount + 1 }
  | none => { told with parseErrors := told.parseErrors + 1 }

/-- The body of the loop of `process_rx_batch`. -/
def processPacket (memory : UInt64 → List UInt8) (acc : σ × Told μ) (desc : UInt64 × Nat) :
    σ × Told μ :=
  if cfg.getFrame desc.1 then
    (A.freeFrame acc.1 desc.1, tell parse acc.2 ((memory desc.1).take desc.2))
  else acc

/-- The second half of a round of `run_rx_loop`. -/
def Receiver.poll (s : Receiver σ μ) : Receiver σ μ :=
  let (pool, told) := ((s.socket.rx.zip s.lens).take 32).foldl
    (processPacket A cfg parse s.memory) (s.socket.pool, s.told)
  { s with
    socket := { s.socket with pool := pool, rx := s.socket.rx.drop 32 }
    lens := s.lens.drop 32
    told := told }

/-- The kernel writes a packet to the `i`-th of its frames and passes it on. -/
def Receiver.deliver (i : Nat) (packet : Packet) (s : Receiver σ μ) :
    Option (Receiver σ μ) := do
  let addr ← s.socket.kernel[i]?
  let socket ← Xsk.deliver i s.socket
  some { s with
    socket := socket
    memory := Function.update s.memory addr (packet ++ (s.memory addr).drop packet.length)
    lens := s.lens ++ [packet.length] }

inductive RxAct where
  | fill (needWakeup : Bool)
  | consume
  | deliver (i : Nat) (packet : Packet)
  | poll

/-- The step of the frames alone. -/
def RxAct.act : RxAct → Act
  | .fill needWakeup => .fill needWakeup
  | .consume => .consume
  | .deliver i _ => .deliver i
  | .poll => .poll

def RxAct.packet : RxAct → Option Packet
  | .deliver _ packet => some packet
  | _ => none

def Receiver.step (s : Receiver σ μ) : RxAct → Option (Receiver σ μ)
  | .fill needWakeup => some { s with socket := (fillRxRing A cfg needWakeup s.socket).2 }
  | .consume => (consume cfg s.socket).map fun socket => { s with socket := socket }
  | .deliver i packet => s.deliver i packet
  | .poll => some (s.poll A cfg parse)

/-- `RxRun start h s`: calls and steps of the kernel, in any order, lead from
`start` to `s`; `h` has each of them with the state before it, newest first. -/
inductive RxRun (start : Receiver σ μ) : List (Receiver σ μ × RxAct) → Receiver σ μ → Prop
  | start : RxRun start [] start
  | step {h : List (Receiver σ μ × RxAct)} {s s' : Receiver σ μ} {a : RxAct} :
      RxRun start h s → s.step A cfg parse a = some s' → RxRun start ((s, a) :: h) s'

/-- The packets that have arrived, oldest first. -/
def arrivals (h : List (Receiver σ μ × RxAct)) : List Packet :=
  (h.filterMap fun e => e.2.packet).reverse

end Calls

variable {A : Allocator σ} {cfg : Config} {parse : List UInt8 → Option μ}

/-! ## The loop of `process_rx_batch` -/

section Loop

variable (A cfg parse) in
/-- The loop frees what the socket's loop frees. -/
theorem pool_processPacket (memory : UInt64 → List UInt8) (descs : List (UInt64 × Nat))
    (acc : σ × Told μ) :
    (descs.foldl (processPacket A cfg parse memory) acc).1 =
      processRxBatch A cfg acc.1 (descs.map Prod.fst) := by
  induction descs generalizing acc with
  | nil => rfl
  | cons desc descs ih =>
    rw [List.foldl_cons, ih]
    show _ = processRxBatch A cfg
      (if cfg.getFrame desc.1 then A.freeFrame acc.1 desc.1 else acc.1) (descs.map Prod.fst)
    unfold processPacket
    split <;> rfl

/-- A frame holds a packet. -/
def Holds (memory : UInt64 → List UInt8) (addr : UInt64) (packet : Packet) : Prop :=
  (memory addr).take packet.length = packet

/-- Writing a packet, whatever of the frame is left behind it. -/
theorem holds_written (memory : UInt64 → List UInt8) (addr : UInt64) (packet : Packet)
    (rest : List UInt8) : Holds (Function.update memory addr (packet ++ rest)) addr packet := by
  rw [Holds, Function.update_self, List.take_left]

theorem Holds.other {memory : UInt64 → List UInt8} {addr addr' : UInt64} {packet : Packet}
    (h : Holds memory addr' packet) (hne : addr' ≠ addr) (bytes : List UInt8) :
    Holds (Function.update memory addr bytes) addr' packet := by
  rw [Holds, Function.update_of_ne hne]
  exact h

/-- The loop tells of the packets that the frames hold. -/
theorem told_processPacket {memory : UInt64 → List UInt8} {addrs : List UInt64}
    {packets : List Packet} (hholds : List.Forall₂ (Holds memory) addrs packets)
    (hdata : ∀ addr ∈ addrs, cfg.getFrame addr = true) (acc : σ × Told μ) :
    ((addrs.zip (packets.map List.length)).foldl (processPacket A cfg parse memory) acc).2 =
      packets.foldl (tell parse) acc.2 := by
  induction hholds generalizing acc with
  | nil => rfl
  | @cons addr packet addrs packets hpacket _ ih =>
    obtain ⟨hframe, hdata⟩ := List.forall_mem_cons.mp hdata
    have hbody : processPacket A cfg parse memory acc (addr, packet.length) =
        (A.freeFrame acc.1 addr, tell parse acc.2 packet) := by
      rw [processPacket, if_pos hframe, hpacket]
    rw [List.map_cons, List.zip_cons_cons, List.foldl_cons, List.foldl_cons, hbody, ih hdata]

end Loop

/-! ## Every step -/

variable (A cfg parse) in
/-- Of the packets that have arrived, some have been processed, and the frames
in the RX ring hold the others. -/
structure RxInv (umem : List UInt64) (processed pending : List Packet) (s : Receiver σ μ) :
    Prop where
  frames : Inv A cfg umem s.socket
  lens : s.lens = pending.map List.length
  holds : List.Forall₂ (Holds s.memory) s.socket.rx pending
  told : s.told = processed.foldl (tell parse) ⟨[], 0, 0⟩

section Steps

variable {umem : List UInt64} {processed pending : List Packet} {s s' : Receiver σ μ}

theorem rx_fillRxRing (needWakeup : Bool) (s : Socket σ) :
    (fillRxRing A cfg needWakeup s).2.rx = s.rx := by
  simp only [fillRxRing]
  split_ifs <;> rfl

/-- The kernel's frames are not in the RX ring. -/
theorem not_mem_rx (hinv : Inv A cfg umem s.socket) (hnodup : umem.Nodup) {addr : UInt64}
    (hkernel : addr ∈ s.socket.kernel) : addr ∉ s.socket.rx := by
  have hframes := hinv.frames.nodup_iff.mpr hnodup
  rw [Socket.frames] at hframes
  have hrest := (List.nodup_append.mp (List.nodup_append.mp hframes).2.1).2.1
  exact fun hrx => (List.nodup_append.mp hrest).2.2 addr hkernel addr hrx rfl

theorem rxInv_fill (hinv : RxInv A cfg parse umem processed pending s) (needWakeup : Bool)
    (hsound : Sound A cfg s.socket (.fill needWakeup)) :
    RxInv A cfg parse umem processed pending
      { s with socket := (fillRxRing A cfg needWakeup s.socket).2 } := by
  refine ⟨inv_fill hinv.frames needWakeup hsound, hinv.lens, ?_, hinv.told⟩
  rw [rx_fillRxRing]
  exact hinv.holds

theorem rxInv_consume (hinv : RxInv A cfg parse umem processed pending s) {socket : Socket σ}
    (hstep : consume cfg s.socket = some socket) :
    RxInv A cfg parse umem processed pending { s with socket := socket } := by
  refine ⟨inv_consume hinv.frames hstep, hinv.lens, ?_, hinv.told⟩
  have hrx : socket.rx = s.socket.rx := by
    unfold consume at hstep
    split at hstep
    · cases hstep
      rfl
    · cases hstep
  rw [hrx]
  exact hinv.holds

/-- A new packet is written to a frame that is not waiting to be processed. -/
theorem rxInv_deliver (hinv : RxInv A cfg parse umem processed pending s) (hnodup : umem.Nodup)
    {i : Nat} {packet : Packet} (hstep : s.deliver i packet = some s') :
    RxInv A cfg parse umem processed (pending ++ [packet]) s' := by
  obtain ⟨addr, hkernel, hstep⟩ := Option.bind_eq_some_iff.mp hstep
  obtain ⟨socket, hdeliver, hstep⟩ := Option.bind_eq_some_iff.mp hstep
  cases hstep
  have hsocket : socket.rx = s.socket.rx ++ [addr] := by
    unfold Xsk.deliver at hdeliver
    rw [hkernel] at hdeliver
    cases hdeliver
    rfl
  have hfresh := not_mem_rx hinv.frames hnodup (List.mem_of_getElem? hkernel)
  refine ⟨inv_deliver hinv.frames hdeliver, ?_, ?_, hinv.told⟩
  · rw [List.map_append, ← hinv.lens]
    rfl
  · rw [hsocket]
    refine List.rel_append ?_ (.cons ?_ .nil)
    · have hothers : ∀ addr' ∈ s.socket.rx, addr' ≠ addr := by
        rintro addr' haddr' rfl
        exact hfresh haddr'
      refine ((List.forall₂_and_left _ _).mpr ⟨hothers, hinv.holds⟩).imp ?_
      rintro addr' packet' ⟨hne, hpacket'⟩
      exact hpacket'.other hne _
    · exact holds_written s.memory addr packet _

theorem rxInv_poll (hinv : RxInv A cfg parse umem processed pending s)
    (hsound : Sound A cfg s.socket .poll) :
    RxInv A cfg parse umem (processed ++ pending.take 32) (pending.drop 32)
      (s.poll A cfg parse) := by
  have hlength : s.lens.length = s.socket.rx.length := by
    rw [hinv.lens, List.length_map, hinv.holds.length_eq]
  have hdescs : (s.socket.rx.zip s.lens).take 32 =
      (s.socket.rx.take 32).zip ((pending.take 32).map List.length) := by
    rw [hinv.lens, List.map_take, List.zip, List.take_zipWith]
  have hpool := pool_processPacket A cfg parse s.memory ((s.socket.rx.zip s.lens).take 32)
    (s.socket.pool, s.told)
  rw [List.map_take, List.map_fst_zip hlength.ge] at hpool
  have hsocket : (s.poll A cfg parse).socket = pollRx A cfg s.socket := by
    rw [pollRx, ← hpool]
    rfl
  refine ⟨?_, ?_, ?_, ?_⟩
  · rw [hsocket]
    exact inv_poll hinv.frames hsound
  · show s.lens.drop 32 = _
    rw [hinv.lens, List.map_drop]
  · exact List.forall₂_drop 32 hinv.holds
  · rw [List.foldl_append, ← hinv.told]
    show (((s.socket.rx.zip s.lens).take 32).foldl (processPacket A cfg parse s.memory)
      (s.socket.pool, s.told)).2 = _
    rw [hdescs]
    exact told_processPacket (List.forall₂_take 32 hinv.holds) hsound (s.socket.pool, s.told)

/-- What a step does to the packets: one arrives, or some are processed, or
none. -/
theorem rxInv_step (hinv : RxInv A cfg parse umem processed pending s) (hnodup : umem.Nodup)
    {a : RxAct} (hsound : Sound A cfg s.socket a.act) (hstep : s.step A cfg parse a = some s') :
    ∃ processed' pending', processed' ++ pending' = processed ++ pending ++ a.packet.toList ∧
      RxInv A cfg parse umem processed' pending' s' := by
  cases a with
  | fill needWakeup =>
    cases hstep
    exact ⟨processed, pending, (List.append_nil _).symm, rxInv_fill hinv needWakeup hsound⟩
  | consume =>
    obtain ⟨socket, hconsume, rfl⟩ := Option.map_eq_some_iff.mp hstep
    exact ⟨processed, pending, (List.append_nil _).symm, rxInv_consume hinv hconsume⟩
  | deliver i packet =>
    exact ⟨processed, pending ++ [packet], (List.append_assoc _ _ _).symm,
      rxInv_deliver hinv hnodup hstep⟩
  | poll =>
    cases hstep
    refine ⟨processed ++ pending.take 32, pending.drop 32, ?_, rxInv_poll hinv hsound⟩
    rw [List.append_assoc, List.take_append_drop]
    exact (List.append_nil _).symm

end Steps

/-! ## Whole runs -/

section Runs

variable {pool : σ} {cells : Nat → UInt64} {memory : UInt64 → List UInt8}
  {h : List (Receiver σ μ × RxAct)} {s : Receiver σ μ}

theorem arrivals_cons (e : Receiver σ μ × RxAct) (h : List (Receiver σ μ × RxAct)) :
    arrivals (e :: h) = arrivals h ++ e.2.packet.toList := by
  unfold arrivals
  rw [List.filterMap_cons]
  cases e.2.packet with
  | none => exact (List.append_nil _).symm
  | some packet => exact List.reverse_cons

theorem rxInv_run (hnodup : (A.frames pool).Nodup)
    (hrun : RxRun A cfg parse (.new pool cells memory) h s)
    (hsound : ∀ e ∈ h, Sound A cfg e.1.socket e.2.act) :
    ∃ processed pending, processed ++ pending = arrivals h ∧
      RxInv A cfg parse (A.frames pool) processed pending s := by
  induction hrun with
  | start => exact ⟨[], [], rfl, inv_new cells, rfl, .nil, rfl⟩
  | @step h s s' a _ hstep ih =>
    obtain ⟨hlast, hbefore⟩ := List.forall_mem_cons.mp hsound
    obtain ⟨processed, pending, harrived, hinv⟩ := ih hbefore
    obtain ⟨processed', pending', harrived', hinv'⟩ := rxInv_step hinv hnodup hlast hstep
    refine ⟨processed', pending', ?_, hinv'⟩
    rw [harrived', harrived, arrivals_cons]

theorem messages_foldl (parse : List UInt8 → Option μ) (packets : List Packet) (told : Told μ) :
    (packets.foldl (tell parse) told).messages = told.messages ++ packets.filterMap parse := by
  induction packets generalizing told with
  | nil => exact (List.append_nil _).symm
  | cons packet packets ih =>
    rw [List.foldl_cons, ih, List.filterMap_cons, tell]
    cases parse packet with
    | none => rfl
    | some msg => exact List.append_assoc _ _ _

/-- Each packet is counted once, by one of the two counters. -/
theorem counters_foldl (parse : List UInt8 → Option μ) (packets : List Packet) (told : Told μ) :
    (packets.foldl (tell parse) told).pktCount =
      told.pktCount + UInt64.ofNat (packets.filterMap parse).length ∧
    (packets.foldl (tell parse) told).parseErrors =
      told.parseErrors + UInt64.ofNat (packets.countP fun packet => (parse packet).isNone) := by
  have hnext (x : UInt64) (n : Nat) : x + 1 + UInt64.ofNat n = x + UInt64.ofNat (n + 1) := by
    rw [UInt64.ofNat_add, UInt64.add_assoc, UInt64.add_comm 1]
    rfl
  induction packets generalizing told with
  | nil => exact ⟨(UInt64.add_zero _).symm, (UInt64.add_zero _).symm⟩
  | cons packet packets ih =>
    obtain ⟨hcount, herrors⟩ := ih (tell parse told packet)
    rw [List.foldl_cons, hcount, herrors, List.filterMap_cons, List.countP_cons, tell]
    cases parse packet with
    | none => exact ⟨rfl, hnext _ _⟩
    | some msg => exact ⟨hnext _ _, rfl⟩

/-- **Packets reach the parser intact, in order and once.** Over any order of
calls and steps of the kernel in which frames stay owned, the packets that have
arrived are those processed and those the frames in the RX ring still hold; the
callback has been told the messages of the former, in order, and each of them
has been counted as a message or as an error. -/
theorem packets_received (hnodup : (A.frames pool).Nodup)
    (hrun : RxRun A cfg parse (.new pool cells memory) h s)
    (hsound : ∀ e ∈ h, Sound A cfg e.1.socket e.2.act) :
    ∃ processed pending, arrivals h = processed ++ pending ∧
      List.Forall₂ (Holds s.memory) s.socket.rx pending ∧
      s.told.messages = processed.filterMap parse ∧
      s.told.pktCount = UInt64.ofNat s.told.messages.length ∧
      s.told.parseErrors = UInt64.ofNat (processed.countP fun packet => (parse packet).isNone) := by
  obtain ⟨processed, pending, harrived, hinv⟩ := rxInv_run hnodup hrun hsound
  have hmessages := messages_foldl parse processed ⟨[], 0, 0⟩
  obtain ⟨hcount, herrors⟩ := counters_foldl parse processed ⟨[], 0, 0⟩
  rw [← hinv.told] at hmessages hcount herrors
  rw [List.nil_append] at hmessages
  rw [UInt64.zero_add] at hcount herrors
  refine ⟨processed, pending, harrived.symm, hinv.holds, hmessages, ?_, herrors⟩
  rw [hcount, hmessages]

/-- The three-argument parser as it would be written on top of the other. -/
def parseValid (buf : List UInt8) : Option Fix.FixMessage :=
  (Fix.parse (some buf) buf.length).filter fun msg => msg.valid

/-- A socket just created. -/
def rxStart : Receiver (List UInt64) Fix.FixMessage := .new framePool (fun _ => 0) fun _ => []

/-- Two packets in two frames, and a poll between them: the second is left in the
RX ring. -/
theorem run_two_packets (packet packet' : Packet) :
    ∃ (h : List (Receiver (List UInt64) Fix.FixMessage × RxAct))
      (s : Receiver (List UInt64) Fix.FixMessage),
      RxRun .stack smallRing parseValid rxStart h s ∧
      arrivals h = [packet, packet'] ∧ s.socket.rx = [2048] ∧
      ∀ e ∈ h, Sound .stack smallRing e.1.socket e.2.act := by
  have hrun : RxRun .stack smallRing parseValid rxStart _ _ :=
    .step (a := .deliver 0 packet') (.step (a := .poll) (.step (a := .deliver 0 packet)
      (.step (a := .consume) (.step (a := .consume) (.step (a := .fill false) .start rfl)
        rfl) rfl) rfl) rfl) rfl
  refine ⟨_, _, hrun, rfl, rfl, ?_⟩
  refine List.forall_mem_cons.mpr ⟨trivial, List.forall_mem_cons.mpr ⟨fun _ _ => rfl,
    List.forall_mem_cons.mpr ⟨trivial, List.forall_mem_cons.mpr ⟨trivial,
      List.forall_mem_cons.mpr ⟨trivial, List.forall_mem_cons.mpr ⟨?_, List.forall_mem_nil _⟩⟩⟩⟩⟩⟩
  exact fun _ => Nat.le_refl 32

/-- A new order and a cancel request: the callback has been told of the first, and
the frame in the RX ring holds the second. -/
theorem packets_received_two_packets :
    ∃ (h : List (Receiver (List UInt64) Fix.FixMessage × RxAct))
      (s : Receiver (List UInt64) Fix.FixMessage),
      RxRun .stack smallRing parseValid rxStart h s ∧
      arrivals h = [[0x33, 0x35, 0x3d, 0x44, 0x01], [0x33, 0x35, 0x3d, 0x46, 0x01]] ∧
      s.told.messages.map Fix.FixMessage.msgType = [.newOrderSingle] ∧ s.told.pktCount = 1 ∧
      s.socket.rx = [2048] ∧ Holds s.memory 2048 [0x33, 0x35, 0x3d, 0x46, 0x01] := by
  obtain ⟨h, s, hrun, harrivals, hrx, hsound⟩ :=
    run_two_packets [0x33, 0x35, 0x3d, 0x44, 0x01] [0x33, 0x35, 0x3d, 0x46, 0x01]
  obtain ⟨processed, pending, hall, hholds, hmessages, hcount, _⟩ :=
    packets_received nodup_framePool hrun hsound
  refine ⟨h, s, ?_⟩
  rw [hrx] at hholds
  cases hholds with
  | @cons _ packet _ _ hpacket hnil =>
    cases hnil
    have hsplit : processed ++ [packet] =
        [[0x33, 0x35, 0x3d, 0x44, 0x01]] ++ [[0x33, 0x35, 0x3d, 0x46, 0x01]] :=
      hall.symm.trans harrivals
    obtain ⟨rfl, hlast⟩ := List.append_inj' hsplit rfl
    cases hlast
    have hparse : parseValid [0x33, 0x35, 0x3d, 0x44, 0x01] =
        some (Fix.grammar [0x33, 0x35, 0x3d, 0x44, 0x01]) := by
      have hgrammar := Fix.parse_eq [0x33, 0x35, 0x3d, 0x44, 0x01] []
      rw [List.append_nil] at hgrammar
      rw [parseValid, hgrammar]
      rfl
    rw [List.filterMap_cons_some hparse, List.filterMap_nil] at hmessages
    rw [hmessages] at hcount ⊢
    exact ⟨hrun, harrivals, rfl, hcount, hrx, hpacket⟩

/-! ## The parser is given the Ethernet frame -/

/-- A buffer that begins with neither a digit nor `=` is not parsed at all. -/
theorem parse_raw {c : UInt8} (hdigit : Fix.isDigit c = false) (heq : c ≠ '='.toUInt8)
    (more : List UInt8) : Fix.parse (some (c :: more)) (c :: more).length = some {} := by
  have hstart := window_start (c :: more) []
  rw [List.append_nil] at hstart
  have hwindow : Window (c :: more) (c :: more).length 0 ([] ++ c :: more) := hstart
  show Fix.parseFields (c :: more) (c :: more).length 0 {} = some {}
  rw [Fix.parseFields_eq_with]
  exact Fix.parseFieldsWith_malformed hwindow (List.forall_mem_nil _) hdigit heq

/-- The packet does not begin with a digit or `=`. -/
def Raw (packet : Packet) : Prop :=
  ∀ c, packet.head? = some c → Fix.isDigit c = false ∧ c ≠ '='.toUInt8

theorem parse_invalid {packet : Packet} (h : Raw packet) :
    Fix.parse (some packet) packet.length = some {} := by
  cases packet with
  | nil => rfl
  | cons c more =>
    obtain ⟨hdigit, heq⟩ := h c rfl
    exact parse_raw hdigit heq more

/-- **No packet is taken for a message.** The packet that is parsed begins with
the Ethernet header, that is, with the address of the interface.  If this begins
with neither a digit nor `=`, then a parser that accepts only buffers `parse`
finds valid accepts no packet: the callback is never called, and every packet
processed is counted as an error. -/
theorem raw_frames_rejected (hnodup : (A.frames pool).Nodup)
    (hrun : RxRun A cfg parse (.new pool cells memory) h s)
    (hsound : ∀ e ∈ h, Sound A cfg e.1.socket e.2.act)
    (hparse : ∀ buf, (parse buf).isSome → ∃ msg,
      Fix.parse (some buf) buf.length = some msg ∧ msg.valid = true)
    (hraw : ∀ packet ∈ arrivals h, Raw packet) :
    s.told.messages = [] ∧ s.told.pktCount = 0 ∧
      s.told.parseErrors = UInt64.ofNat ((arrivals h).length - s.socket.rx.length) := by
  obtain ⟨processed, pending, harrived, hinv⟩ := rxInv_run hnodup hrun hsound
  have hnone : ∀ packet ∈ processed, parse packet = none := by
    intro packet hmem
    by_contra hsome
    obtain ⟨msg, hmsg, hvalid⟩ := hparse packet (Option.isSome_iff_ne_none.mpr hsome)
    have hinvalid := parse_invalid (hraw packet (harrived ▸ List.mem_append_left _ hmem))
    rw [hmsg] at hinvalid
    cases hinvalid
    cases hvalid
  have hempty : processed.filterMap parse = [] := List.filterMap_eq_nil_iff.mpr hnone
  have hall : (processed.countP fun packet => (parse packet).isNone) = processed.length :=
    List.countP_eq_length.mpr fun packet hmem => by rw [hnone packet hmem]; rfl
  have hlength : (arrivals h).length - s.socket.rx.length = processed.length := by
    rw [← harrived, List.length_append, hinv.holds.length_eq, Nat.add_sub_cancel]
  have hmessages := messages_foldl parse processed ⟨[], 0, 0⟩
  obtain ⟨hcount, herrors⟩ := counters_foldl parse processed ⟨[], 0, 0⟩
  rw [hempty] at hmessages hcount
  rw [← hinv.told] at hmessages hcount herrors
  refine ⟨hmessages, hcount, ?_⟩
  rw [herrors, hall, hlength, UInt64.zero_add]

/-- A new order behind the header of a packet for the address 02:00:00:00:00:01; a
broadcast is still in the RX ring. -/
theorem raw_frames_rejected_new_order :
    ∃ (h : List (Receiver (List UInt64) Fix.FixMessage × RxAct))
      (s : Receiver (List UInt64) Fix.FixMessage),
      RxRun .stack smallRing parseValid rxStart h s ∧
      s.told.messages = [] ∧ s.told.pktCount = 0 ∧ s.told.parseErrors = 1 := by
  obtain ⟨h, s, hrun, harrivals, hrx, hsound⟩ :=
    run_two_packets [0x02, 0, 0, 0, 0, 0x01, 0x33, 0x35, 0x3d, 0x44, 0x01] [0xff]
  have hparse : ∀ buf, (parseValid buf).isSome → ∃ msg,
      Fix.parse (some buf) buf.length = some msg ∧ msg.valid = true := by
    intro buf hsome
    obtain ⟨msg, hmsg⟩ := Option.isSome_iff_exists.mp hsome
    exact ⟨msg, Option.filter_eq_some_iff.mp hmsg⟩
  have hraw : ∀ packet ∈ arrivals h, Raw packet := by
    rw [harrivals]
    intro packet hmem c hc
    rcases List.mem_pair.mp hmem with rfl | rfl
    · cases hc
      exact ⟨rfl, by decide⟩
    · cases hc
      exact ⟨rfl, by decide⟩
  obtain ⟨hmessages, hcount, herrors⟩ :=
    raw_frames_rejected nodup_framePool hrun hsound hparse hraw
  rw [harrivals, hrx] at herrors
  exact ⟨h, s, hrun, hmessages, hcount, herrors⟩

end Runs

end HftEngine.Xsk
