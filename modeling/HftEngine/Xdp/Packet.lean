import HftEngine.Lib.Wire

/-!
# Packets at the XDP hook

What the two XDP programs have in common: the context they are given, the
verdict they return, the kernel's `bpf_redirect_map`, of which no more is known
than that it finds a socket (`FindsSocket`), and the layout of the kernel's
headers.  A pointer into the packet is its distance from `data`, and
`data_end` is the length; a read past it has no value.

`etherType`, `headerLength`, `protocol` and `fragmentOffset` are the fields of
a packet as the standards have them, and `transport` is where the header
behind the IP header begins.
-/

namespace HftEngine.Xdp

open Lib

/-- `enum xdp_action`. -/
inductive XdpAction where
  | aborted
  | drop
  | pass
  | tx
  | redirect
deriving Repr, DecidableEq

/-- `struct xdp_md`: the packet, and the queue it came in by. -/
structure XdpMd where
  data : List UInt8
  rxQueueIndex : UInt32
deriving Repr, DecidableEq

/-- `bpf_redirect_map` on the program's map of sockets: the verdict for an index,
and for what the flags say is to be done where there is no socket. -/
abbrev RedirectMap := UInt32 → XdpAction → XdpAction

/-- The map has a socket at the index. -/
def FindsSocket (bpfRedirectMap : RedirectMap) (key : UInt32) : Prop :=
  ∀ flags, bpfRedirectMap key flags = .redirect

/-- A map with a single socket, at index 0. -/
def firstSocket : RedirectMap := fun key flags => if key = 0 then .redirect else flags

theorem findsSocket_firstSocket : FindsSocket firstSocket 0 := fun _ => rfl

/-! ## Headers -/

/-- `ETH_P_IP`. -/
def ethPIp : UInt16 := 0x0800

/-- `IPPROTO_TCP`. -/
def ipprotoTcp : UInt8 := 6

/-- `IPPROTO_UDP`. -/
def ipprotoUdp : UInt8 := 17

section Layout

/-! `struct ethhdr`: two addresses of six bytes, and the type. -/

def sizeofEthhdr : Nat := 14

def hProtoOffset : Nat := 12

/-! `struct iphdr`: the first byte has the length in its lower half. -/

def sizeofIphdr : Nat := 20

def protocolOffset : Nat := 9

/-! `struct tcphdr` and `struct udphdr`: first the two ports. -/

def sizeofTcphdr : Nat := 20

def sizeofUdphdr : Nat := 8

def sourceOffset : Nat := 0

def destOffset : Nat := 2

end Layout

/-! ## What a packet says -/

def etherType (packet : List UInt8) : Nat := networkWord packet 12

/-- The length of the IP header, in words of four bytes. -/
def headerLength (packet : List UInt8) : Nat := (byteAt packet 14).toNat % 16

def protocol (packet : List UInt8) : UInt8 := byteAt packet 23

/-- The lower thirteen bits of the word with the flags. -/
def fragmentOffset (packet : List UInt8) : Nat := networkWord packet 20 % 2 ^ 13

/-- Right behind the IP header. -/
def transport (packet : List UInt8) : Nat := 14 + 4 * headerLength packet

def sourcePort (packet : List UInt8) : Nat := networkWord packet (transport packet)

def destPort (packet : List UInt8) : Nat := networkWord packet (transport packet + 2)

/-- A whole Ethernet and IPv4 header with this protocol, of a packet that is
not a later fragment. -/
def Carries (proto : UInt8) (packet : List UInt8) : Prop :=
  34 ≤ packet.length ∧ etherType packet = 0x0800 ∧ protocol packet = proto ∧
    fragmentOffset packet = 0

end HftEngine.Xdp
