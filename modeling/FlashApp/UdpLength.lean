import FlashApp.UdpTable

namespace FlashApp.Udp

open Bytes Eth Slots

variable {H : Type}

def ipProtocolIcmp : Nat := 0x01

/-- Where `ipv4_process_packet` gives a packet to. The UDP case has the result
of `udp_process_packet`. -/
inductive Ipv4Process (H : Type) where
  | ignored
  | icmp
  | udp (q : Frame × Option (HandlerCall H))

def ipv4ProcessPacket (t : Table H) (ptEthPkt : Frame) (sizPacket : Nat) : Ipv4Process H :=
  if sizPacket ≥ sizeofEth2Header + sizeofIpv4Header then
    if (ptEthPkt IpHdr.ucVersion).toNat = ipVersion then
      if (ptEthPkt IpHdr.ucProtocol).toNat = ipProtocolIcmp then
        .icmp
      else if (ptEthPkt IpHdr.ucProtocol).toNat = ipProtocolUdp then
        .udp (udpProcessPacket t ptEthPkt sizPacket)
      else
        .ignored
    else
      .ignored
  else
    .ignored

def udpLength (ptPkt : Frame) : Nat := mus2nus (get16 ptPkt UdpHdr.usLength)

/-- The length that a handler gets is the one of the user data, and all of it
is in the packet. -/
structure LengthPresent (ptPkt : Frame) (sizPacket sizLength : Nat) : Prop where
  header : sizeofUdpHeader ≤ udpLength ptPkt
  length : sizLength = udpLength ptPkt - sizeofUdpHeader
  present : sizeofEth2Header + sizeofIpv4Header + sizeofUdpHeader + sizLength ≤ sizPacket

theorem lengthPresent_iff {f : Frame} {siz : Nat} (hacc : Accepted f siz) (t : Table H) (i : Fin 8) :
    LengthPresent f siz (handlerCall t f i).sizLength ↔ sizeofUdpHeader ≤ udpLength f := by
  constructor
  · exact LengthPresent.header
  · intro hlen
    obtain ⟨hsiz, hle, -⟩ := hacc
    have hlt : udpLength f < 2 ^ 16 := mus2nus_lt _
    have hsub : (handlerCall t f i).sizLength = udpLength f - sizeofUdpHeader :=
      sub32_of_le hlen (hlt.trans (by decide))
    refine ⟨hlen, hsub, ?_⟩
    rw [hsub]
    unfold udpLength sizeofEth2Header sizeofIpv4Header sizeofUdpHeader at *
    omega

/-- A handler gets the length of the user data in the packet exactly if the
length field of a packet that is accepted, and for which there is a handler, is
not less than the UDP header. -/
theorem handler_length_iff (t : Table H) (ptPkt : Frame) (sizPacket : Nat) :
    (∀ c, (udpProcessPacket t ptPkt sizPacket).2 = some c → LengthPresent ptPkt sizPacket c.sizLength) ↔
      (Accepted ptPkt sizPacket → (∃ i, (t i).uiLocalPort = get16 ptPkt UdpHdr.usDstPort) →
        sizeofUdpHeader ≤ udpLength ptPkt) := by
  rw [udpProcessPacket_eq]
  by_cases hacc : Accepted ptPkt sizPacket
  · simp only [hacc, ↓reduceIte, true_imp_iff]
    constructor
    · rintro hall ⟨i, hi⟩
      obtain ⟨j, hj⟩ := exists_find (p := fun i => (t i).uiLocalPort == get16 ptPkt UdpHdr.usDstPort) (i := i)
        (by simpa using hi)
      exact (hall (handlerCall t ptPkt j) (by rw [hj]; rfl)).header
    · intro hlen c hc
      obtain ⟨j, hj, rfl⟩ := Option.map_eq_some_iff.mp hc
      have hport : (t j).uiLocalPort = get16 ptPkt UdpHdr.usDstPort := by simpa using find_some hj
      exact (lengthPresent_iff hacc t j).mpr (hlen ⟨j, hport⟩)
  · simp [hacc]

/-- A packet of the minimum size with a length field of zero. The checksum is
the one of the protocol and the addresses only. -/
def zeroLengthPacket : Frame := fun o =>
  ([0x02, 0x00, 0x00, 0x00, 0x00, 0x0a, 0x02, 0x00, 0x00, 0x00, 0x00, 0x01, 0x08, 0x00,
    0x45, 0x00, 0x00, 0x1c, 0x00, 0x01, 0x40, 0x00, 0x40, 0x11, 0xb9, 0x74,
    192, 168, 0, 1, 192, 168, 0, 10, 0x00, 0x35, 0x00, 0x35, 0x00, 0x00, 0x7e, 0x92] : List UInt8).getD o 0

def dnsTable : Table Nat := fun _ => ⟨mus2nus 53, ipAdr 192 168 0 1, mus2nus 53, 0x08001234, 0⟩

/-- The length wraps around, so the handler is told that there are almost 2^32
bytes. -/
theorem zero_length_wraps :
    ¬ ∀ (t : Table Nat) (ptPkt : Frame) (sizPacket : Nat) (c : HandlerCall Nat) (g : Frame),
      ipv4ProcessPacket t ptPkt sizPacket = .udp (g, some c) → LengthPresent ptPkt sizPacket c.sizLength := by
  intro h
  have hacc : Accepted zeroLengthPacket 60 := by decide +kernel
  have hudp : udpProcessPacket dnsTable zeroLengthPacket 60 =
      (zeroLengthPacket, some (handlerCall dnsTable zeroLengthPacket 0)) := by
    rw [udpProcessPacket_eq, if_pos hacc]
    rfl
  have hlen := h dnsTable zeroLengthPacket 60 (handlerCall dnsTable zeroLengthPacket 0) zeroLengthPacket (by
    rw [← hudp]
    rfl)
  exact absurd hlen.header (by decide)

end FlashApp.Udp
