import HftEngine.Xdp.Packet

/-!
# The UDP filter (`xdp_fix_redirect.c`)

`xdp_fix_redirect` is to steer the FIX packets that come over UDP to a
socket.  `xdpFixRedirect_eq` says which packets it steers (`Forwarded`).  Of
its three parsers, `parse_udp` turns the word it reads around and
`parse_ethernet` does not.  So on a little-endian machine the type of the
packet has to be the bytes 00 08, not those of IPv4 (`forwarded_little`), and
the program misses every packet it is made for.
-/

namespace HftEngine.Xdp

open Lib

/-- `FIX_PORT`. -/
def udpFixPort : UInt16 := 9876

/-- The three parsers: a header of `size` bytes at `nhOff`, of which `read`
takes one field.  The return value -1 is `none`. -/
def parseHeader {α : Type} (size : Nat) (read : List UInt8 → Nat → Option α) (data : List UInt8)
    (nhOff : Nat) : Option (Option α) := do
  if nhOff + size > data.length then return none
  let x ← read data nhOff
  return some x

def parseEthernet (e : Endian) : List UInt8 → Nat → Option (Option UInt16) :=
  parseHeader sizeofEthhdr fun data eth => load16 e data (eth + hProtoOffset)

def parseIpv4 : List UInt8 → Nat → Option (Option UInt8) :=
  parseHeader sizeofIphdr fun data iph => load8 data (iph + protocolOffset)

def parseUdp (e : Endian) : List UInt8 → Nat → Option (Option UInt16) :=
  parseHeader sizeofUdphdr fun data udph => (load16 e data (udph + destOffset)).map e.ntohs

def xdpFixRedirect (e : Endian) (bpfRedirectMap : RedirectMap) (ctx : XdpMd) :
    Option XdpAction := do
  let some ethProto ← parseEthernet e ctx.data 0 | return .pass
  if ethProto ≠ ethPIp then return .pass
  let some ipProto ← parseIpv4 ctx.data sizeofEthhdr | return .pass
  if ipProto ≠ ipprotoUdp then return .pass
  let some udpDport ← parseUdp e ctx.data (sizeofEthhdr + sizeofIphdr) | return .pass
  if udpDport = udpFixPort then return bpfRedirectMap 0 .drop
  return .pass

/-! ## What the program steers -/

theorem parseHeader_eq {α : Type} {size nhOff : Nat} {read : List UInt8 → Nat → Option α}
    {data : List UInt8} {x : α} (hread : nhOff + size ≤ data.length → read data nhOff = some x) :
    parseHeader size read data nhOff =
      some (if nhOff + size ≤ data.length then some x else none) := by
  rw [parseHeader]
  by_cases h : nhOff + size ≤ data.length
  · rw [if_neg (Nat.not_lt.mpr h), hread h, if_pos h]
    rfl
  · rw [if_pos (Nat.lt_of_not_le h), if_neg h]
    rfl

theorem parseEthernet_eq (e : Endian) (data : List UInt8) :
    parseEthernet e data 0 =
      some (if 14 ≤ data.length then some (e.word (byteAt data 12) (byteAt data 13)) else none) :=
  parseHeader_eq fun h => load16_eq e h

theorem parseIpv4_eq (data : List UInt8) :
    parseIpv4 data sizeofEthhdr =
      some (if 34 ≤ data.length then some (protocol data) else none) :=
  parseHeader_eq fun h => load8_eq (by
    have hle : 34 ≤ data.length := h
    show 23 < _
    omega)

theorem parseUdp_eq (e : Endian) (data : List UInt8) :
    parseUdp e data (sizeofEthhdr + sizeofIphdr) =
      some (if 42 ≤ data.length then
        some (e.ntohs (e.word (byteAt data 36) (byteAt data 37))) else none) :=
  parseHeader_eq fun h => by
    have hle : 42 ≤ data.length := h
    rw [load16_eq e (by show 38 ≤ _; omega)]
    rfl

/-- The packets the program steers to the socket: the type is compared as the
machine has it, and the IP header is taken to have five words. -/
def Forwarded (e : Endian) (packet : List UInt8) : Prop :=
  42 ≤ packet.length ∧ e.word (byteAt packet 12) (byteAt packet 13) = ethPIp ∧
    protocol packet = ipprotoUdp ∧ networkWord packet 36 = 9876

instance instDecidableForwarded (e : Endian) (packet : List UInt8) :
    Decidable (Forwarded e packet) :=
  inferInstanceAs (Decidable (_ ∧ _ ∧ _ ∧ _))

theorem xdpFixRedirect_eq (e : Endian) (bpfRedirectMap : RedirectMap) (ctx : XdpMd) :
    xdpFixRedirect e bpfRedirectMap ctx =
      some (if Forwarded e ctx.data then bpfRedirectMap 0 .drop else .pass) := by
  have hpass : ¬ Forwarded e ctx.data → some XdpAction.pass =
      some (if Forwarded e ctx.data then bpfRedirectMap 0 .drop else .pass) :=
    fun h => by rw [if_neg h]
  -- each test either lets the packet pass, and it is not one of those
  -- forwarded, or leads to the next parser
  rw [xdpFixRedirect, parseEthernet_eq]
  by_cases heth : 14 ≤ ctx.data.length
  swap
  · rw [if_neg heth]
    exact hpass fun h => by have := h.1; omega
  rw [if_pos heth]
  simp only [Option.bind_eq_bind, Option.bind_some]
  by_cases htype : e.word (byteAt ctx.data 12) (byteAt ctx.data 13) = ethPIp
  swap
  · rw [if_pos htype]
    exact hpass fun h => htype h.2.1
  rw [if_neg (not_not.mpr htype), parseIpv4_eq]
  by_cases hip : 34 ≤ ctx.data.length
  swap
  · rw [if_neg hip]
    exact hpass fun h => by have := h.1; omega
  rw [if_pos hip]
  simp only [Option.bind_some]
  by_cases hproto : protocol ctx.data = ipprotoUdp
  swap
  · rw [if_pos hproto]
    exact hpass fun h => hproto h.2.2.1
  rw [if_neg (not_not.mpr hproto), parseUdp_eq]
  by_cases hudp : 42 ≤ ctx.data.length
  swap
  · rw [if_neg hudp]
    exact hpass fun h => hudp h.1
  rw [if_pos hudp]
  simp only [Option.bind_some]
  by_cases hport : networkWord ctx.data 36 = udpFixPort.toNat
  · rw [if_pos ((ntohs_eq_iff e ctx.data 36 udpFixPort).mpr hport),
      if_pos ⟨hudp, htype, hproto, hport⟩]
    rfl
  · rw [if_neg (mt (ntohs_eq_iff e ctx.data 36 udpFixPort).mp hport)]
    exact hpass fun h => hport h.2.2.2

/-! ## A little-endian machine -/

/-- No packet with the type of IPv4 is steered. -/
theorem forwarded_little (packet : List UInt8) :
    Forwarded .little packet ↔ 42 ≤ packet.length ∧ byteAt packet 12 = 0x00 ∧
      byteAt packet 13 = 0x08 ∧ protocol packet = ipprotoUdp ∧ networkWord packet 36 = 9876 := by
  have htype : Endian.little.word (byteAt packet 12) (byteAt packet 13) = ethPIp ↔
      byteAt packet 12 = 0x00 ∧ byteAt packet 13 = 0x08 := by
    have h₀ := (byteAt packet 12).toNat_lt
    have h₁ := (byteAt packet 13).toNat_lt
    rw [← UInt16.toNat_inj, Endian.toNat_word_little, ← UInt8.toNat_inj, ← UInt8.toNat_inj]
    show _ = 0x0800 ↔ _ = 0 ∧ _ = 8
    omega
  rw [Forwarded, htype, and_assoc]

/-- A UDP datagram to the FIX port. -/
def IsFixUdp (packet : List UInt8) : Prop :=
  Carries ipprotoUdp packet ∧ transport packet + 8 ≤ packet.length ∧ destPort packet = 9876

theorem not_forwarded_of_isFixUdp {packet : List UInt8} (h : IsFixUdp packet) :
    ¬ Forwarded .little packet := by
  rw [forwarded_little]
  rintro ⟨_, h₀, h₁, _⟩
  have htype : etherType packet = 0x0800 := h.1.2.1
  rw [etherType, networkWord, h₀, h₁] at htype
  exact absurd htype (by decide)

/-- **The filter takes the FIX packets and no others**, on a little-endian
machine, exactly of the packets that are neither FIX packets nor such as it
steers: it misses every FIX packet. -/
theorem xdpFixRedirect_exact_iff (bpfRedirectMap : RedirectMap) (ctx : XdpMd)
    (hsocket : FindsSocket bpfRedirectMap 0) :
    ∃ action, xdpFixRedirect .little bpfRedirectMap ctx = some action ∧
      (action = .redirect ∨ action = .pass) ∧
      ((action = .redirect ↔ IsFixUdp ctx.data) ↔
        ¬ IsFixUdp ctx.data ∧ ¬ (42 ≤ ctx.data.length ∧ byteAt ctx.data 12 = 0x00 ∧
          byteAt ctx.data 13 = 0x08 ∧ protocol ctx.data = ipprotoUdp ∧
          networkWord ctx.data 36 = 9876)) := by
  refine ⟨_, xdpFixRedirect_eq .little bpfRedirectMap ctx, ?_⟩
  rw [hsocket, ← forwarded_little]
  by_cases hforwarded : Forwarded .little ctx.data
  · have hfix : ¬ IsFixUdp ctx.data := fun h => not_forwarded_of_isFixUdp h hforwarded
    simp [hforwarded, hfix]
  · simp [hforwarded]

/-- Ethernet, IP and UDP headers: the type, and the two bytes of the port. -/
def datagram (typeHi typeLo portHi portLo : UInt8) : XdpMd :=
  ⟨List.replicate 12 0 ++ [typeHi, typeLo, 0x45, 0, 0, 28, 0, 0, 0, 0, 64, 17] ++
    List.replicate 10 0 ++ [0xc0, 0x01, portHi, portLo, 0, 8, 0, 0], 0⟩

/-- A datagram to another port passes. -/
theorem xdpFixRedirect_exact_other :
    ¬ IsFixUdp (datagram 0x08 0x00 0 53).data ∧
      xdpFixRedirect .little firstSocket (datagram 0x08 0x00 0 53) = some .pass := by
  obtain ⟨action, haction, hverdict, hiff⟩ := xdpFixRedirect_exact_iff firstSocket
    (datagram 0x08 0x00 0 53) findsSocket_firstSocket
  have hport : destPort (datagram 0x08 0x00 0 53).data ≠ 9876 := by decide
  have hother : ¬ IsFixUdp (datagram 0x08 0x00 0 53).data := fun h => hport h.2.2
  have hright := hiff.mpr ⟨hother, by decide⟩
  rcases hverdict with hredirect | rfl
  · exact absurd (hright.mp hredirect) hother
  · exact ⟨hother, haction⟩

/-- A FIX packet passes by, and one that is not even IPv4 is taken. -/
theorem fix_datagram_missed :
    (IsFixUdp (datagram 0x08 0x00 0x26 0x94).data ∧
      xdpFixRedirect .little firstSocket (datagram 0x08 0x00 0x26 0x94) = some .pass) ∧
    (¬ IsFixUdp (datagram 0x00 0x08 0x26 0x94).data ∧
      xdpFixRedirect .little firstSocket (datagram 0x00 0x08 0x26 0x94) = some .redirect) := by
  refine ⟨⟨⟨⟨Nat.le_add_right 34 8, rfl, rfl, rfl⟩, Nat.le_refl 42, rfl⟩, rfl⟩, ?_, rfl⟩
  intro h
  exact absurd h.1.2.1 (by decide)

end HftEngine.Xdp
