import HftEngine.Xdp.Packet

/-!
# The TCP filter (`redirect.bpf.c`)

`xdp_redirect_fix` steers the packets of a FIX session over TCP to a socket.
`xdpRedirectFix_eq` says which packets these are: `Steered`, a condition on
the bytes.  It has every packet of the session (`IsFixTcp`), and others: the
program takes the length of the IP header as it stands, so that the ports may
be read from the IP header itself, and does not look at the fragment offset,
so that they may be read from the data of a later fragment.
-/

namespace HftEngine.Xdp

open Lib

/-- `FIX_PORT`. -/
def tcpFixPort : UInt16 := 9878

def xdpRedirectFix (e : Endian) (bpfRedirectMap : RedirectMap) (ctx : XdpMd) :
    Option XdpAction := do
  let dataEnd := ctx.data.length
  -- the Ethernet header
  let eth := 0
  if eth + sizeofEthhdr > dataEnd then return .pass
  let hProto ← load16 e ctx.data (eth + hProtoOffset)
  if e.ntohs hProto ≠ ethPIp then return .pass
  -- the IP header
  let ip := eth + sizeofEthhdr
  if ip + sizeofIphdr > dataEnd then return .pass
  let protocol ← load8 ctx.data (ip + protocolOffset)
  if protocol ≠ ipprotoTcp then return .pass
  -- the TCP header
  let ihl ← load8 ctx.data ip
  let tcp := ip + (ihl &&& 0x0f).toNat * 4
  if tcp + sizeofTcphdr > dataEnd then return .pass
  let dest ← load16 e ctx.data (tcp + destOffset)
  let source ← load16 e ctx.data (tcp + sourceOffset)
  if e.ntohs dest ≠ tcpFixPort ∧ e.ntohs source ≠ tcpFixPort then return .pass
  return bpfRedirectMap ctx.rxQueueIndex .pass

/-- The packets the program steers to the socket. -/
def Steered (packet : List UInt8) : Prop :=
  34 ≤ packet.length ∧ etherType packet = 0x0800 ∧ protocol packet = ipprotoTcp ∧
    transport packet + 20 ≤ packet.length ∧
    (destPort packet = 9878 ∨ sourcePort packet = 9878)

instance instDecidableSteered (packet : List UInt8) : Decidable (Steered packet) :=
  inferInstanceAs (Decidable (_ ∧ _ ∧ _ ∧ _ ∧ _))

theorem xdpRedirectFix_eq (e : Endian) (bpfRedirectMap : RedirectMap) (ctx : XdpMd) :
    xdpRedirectFix e bpfRedirectMap ctx =
      some (if Steered ctx.data then bpfRedirectMap ctx.rxQueueIndex .pass else .pass) := by
  have hpass : ¬ Steered ctx.data → some XdpAction.pass =
      some (if Steered ctx.data then bpfRedirectMap ctx.rxQueueIndex .pass else .pass) :=
    fun h => by rw [if_neg h]
  -- each test either lets the packet pass, and it is not one of those
  -- steered, or vouches for the next reads
  unfold xdpRedirectFix
  simp only [sizeofEthhdr, hProtoOffset, sizeofIphdr, protocolOffset, sizeofTcphdr, destOffset,
    sourceOffset, Nat.zero_add, Nat.add_zero, gt_iff_lt, Nat.reduceAdd]
  by_cases heth : ctx.data.length < 14
  · rw [if_pos heth]
    exact hpass fun h => by have := h.1; omega
  rw [if_neg heth, load16_eq e (by omega)]
  simp only [Option.bind_eq_bind, Option.bind_some, ne_eq, ntohs_eq_iff]
  by_cases htype : networkWord ctx.data 12 = ethPIp.toNat
  swap
  · rw [if_pos htype]
    exact hpass fun h => htype h.2.1
  rw [if_neg (not_not.mpr htype)]
  by_cases hip : ctx.data.length < 34
  · rw [if_pos hip]
    exact hpass fun h => by have := h.1; omega
  rw [if_neg hip, load8_eq (by omega), Option.bind_some]
  by_cases hproto : byteAt ctx.data 23 = ipprotoTcp
  swap
  · rw [if_pos hproto]
    exact hpass fun h => hproto h.2.2.1
  rw [if_neg (not_not.mpr hproto), load8_eq (by omega), Option.bind_some, toNat_lowNibble]
  have htcp : 14 + (byteAt ctx.data 14).toNat % 16 * 4 = transport ctx.data := by
    rw [transport, headerLength]
    omega
  rw [htcp]
  by_cases hfits : ctx.data.length < transport ctx.data + 20
  · rw [if_pos hfits]
    exact hpass fun h => by have := h.2.2.2.1; omega
  rw [if_neg hfits, load16_eq e (by omega), Option.bind_some, load16_eq e (by omega),
    Option.bind_some]
  simp only [ntohs_eq_iff]
  by_cases hport : destPort ctx.data = 9878 ∨ sourcePort ctx.data = 9878
  · rw [if_neg (fun h => hport.elim h.1 h.2),
      if_pos ⟨by omega, htype, hproto, by omega, hport⟩]
    rfl
  · have hother : ¬ networkWord ctx.data (transport ctx.data + 2) = tcpFixPort.toNat ∧
        ¬ networkWord ctx.data (transport ctx.data) = tcpFixPort.toNat := not_or.mp hport
    rw [if_pos hother]
    exact hpass fun h => hport h.2.2.2.2

/-! ## The packets of a session -/

/-- A TCP segment of a FIX session: the ports are in the header right behind
the IP header. -/
def IsFixTcp (packet : List UInt8) : Prop :=
  Carries ipprotoTcp packet ∧ 5 ≤ headerLength packet ∧ transport packet + 20 ≤ packet.length ∧
    (sourcePort packet = 9878 ∨ destPort packet = 9878)

theorem isFixTcp_iff (packet : List UInt8) :
    IsFixTcp packet ↔ Steered packet ∧ 5 ≤ headerLength packet ∧ fragmentOffset packet = 0 := by
  unfold IsFixTcp Carries Steered
  tauto

/-- **The filter takes the packets of a session and no others** exactly if a
packet that it takes has an IP header of at least five words and is not a later
fragment.  It answers for every packet, and lets pass what it does not take. -/
theorem xdpRedirectFix_exact_iff (e : Endian) (bpfRedirectMap : RedirectMap) (ctx : XdpMd)
    (hsocket : FindsSocket bpfRedirectMap ctx.rxQueueIndex) :
    ∃ action, xdpRedirectFix e bpfRedirectMap ctx = some action ∧
      (action = .redirect ∨ action = .pass) ∧
      ((action = .redirect ↔ IsFixTcp ctx.data) ↔
        (Steered ctx.data → 5 ≤ headerLength ctx.data ∧ fragmentOffset ctx.data = 0)) := by
  refine ⟨_, xdpRedirectFix_eq e bpfRedirectMap ctx, ?_⟩
  rw [hsocket, isFixTcp_iff]
  by_cases hsteered : Steered ctx.data
  · simp [hsteered]
  · simp [hsteered]

/-- An Ethernet and an IP header of TCP, the latter with this first byte, total
length and fragment word. -/
def headers (versionIhl lenHi lenLo fragHi fragLo : UInt8) : List UInt8 :=
  List.replicate 12 0 ++ [0x08, 0x00, versionIhl, 0, lenHi, lenLo, 0, 0, fragHi, fragLo, 64, 6] ++
    List.replicate 10 0

/-- A TCP header with these ports. -/
def ports (sourceHi sourceLo destHi destLo : UInt8) : List UInt8 :=
  [sourceHi, sourceLo, destHi, destLo] ++ List.replicate 16 0

/-- A segment to port 9878. -/
def segment : XdpMd := ⟨headers 0x45 0 40 0 0 ++ ports 0xc0 0x01 0x26 0x96, 0⟩

/-- It is one of the session's, and redirected. -/
theorem xdpRedirectFix_exact_segment :
    IsFixTcp segment.data ∧ xdpRedirectFix .little firstSocket segment = some .redirect := by
  obtain ⟨action, haction, _, hiff⟩ :=
    xdpRedirectFix_exact_iff .little firstSocket segment findsSocket_firstSocket
  have hheader : 5 ≤ headerLength segment.data ∧ fragmentOffset segment.data = 0 := by decide
  have hsession : IsFixTcp segment.data := by
    rw [isFixTcp_iff]
    exact ⟨by decide, hheader⟩
  rw [(hiff.mpr fun _ => hheader).mpr hsession] at haction
  exact ⟨hsession, haction⟩

/-- A packet without a TCP header, whose IP header claims to be of length zero
and whose total length is 9878. -/
def headless : XdpMd := ⟨headers 0x40 0x26 0x96 0 0, 0⟩

/-- A later fragment, whose data has 9878 in the place of a port. -/
def fragment : XdpMd := ⟨headers 0x45 0 40 0x00 0xb9 ++ ports 0 0 0x26 0x96, 0⟩

theorem strangers_redirected :
    (xdpRedirectFix .little firstSocket headless = some .redirect ∧ ¬ IsFixTcp headless.data) ∧
      (xdpRedirectFix .little firstSocket fragment = some .redirect ∧
        ¬ IsFixTcp fragment.data) := by
  refine ⟨⟨rfl, ?_⟩, rfl, ?_⟩
  · intro h
    exact absurd h.2.1 (by decide)
  · intro h
    exact absurd h.1.2.2.2 (by decide)

end HftEngine.Xdp
