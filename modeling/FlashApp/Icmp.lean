import FlashApp.UdpLength
import FlashApp.UdpChecksum

namespace FlashApp.Icmp

open Bytes Eth Udp

def icmpEchoReply : Nat := 0x00
def icmpEchoRequest : Nat := 0x08

def sizeofIcmpPacket : Nat := 8

/-- Offsets in a frame with an `ICMP_PACKET_T`. -/
def ucType : Nat := 34
def ucCode : Nat := 35
def usChecksum : Nat := 36
def usIdentifier : Nat := 38
def usSequenceNumber : Nat := 40
def aucData : Nat := 42

/-- The frame of the reply before it goes to `ipv4_send_packet`. Both lengths
come from the IP header and can wrap around. -/
def echoReply (ptEthPkt ptSendPacket : Frame) (sizIcmpPacketSize : Nat) : Frame :=
  let f := put8 ptSendPacket ucType icmpEchoReply
  let f := put8 f ucCode (ptEthPkt ucCode).toNat
  let f := put16 f usChecksum 0
  let f := put16 f usIdentifier (get16 ptEthPkt usIdentifier)
  let f := put16 f usSequenceNumber (get16 ptEthPkt usSequenceNumber)
  let f := store f aucData (slice ptEthPkt aucData (sub32 sizIcmpPacketSize sizeofIcmpPacket))
  put16 f usChecksum (mus2nus (checksumAddComplement f ucType sizIcmpPacketSize))

/-- The answer to a packet, if there is one. The last parameter is the result
of `eth_get_empty_packet`. -/
def icmpProcessPacket (o : Ethernet) (uiIpOutputId : Nat) (ptEthPkt : Frame) (sizPacket : Nat)
    (ptSendPacket : Option Frame) : Option (ArpSend × Nat) :=
  if sizPacket ≥ sizeofEth2Header + sizeofIpv4Header + sizeofIcmpPacket then
    if (ptEthPkt ucType).toNat = icmpEchoRequest then
      ptSendPacket.map fun ptSendPacket =>
        let sizIcmpPacketSize := sub32 (mus2nus (get16 ptEthPkt IpHdr.usLength)) sizeofIpv4Header
        ipv4SendPacket o uiIpOutputId (echoReply ptEthPkt ptSendPacket sizIcmpPacketSize)
          (get32 ptEthPkt IpHdr.ulSrcIp) ipProtocolIcmp sizIcmpPacketSize
    else none
  else none

def ipLength (f : Frame) : Nat := mus2nus (get16 f IpHdr.usLength)

/-- The reply `r`, in a buffer that had the contents `f`, gives back what is
in the request, and nothing but that. -/
structure Echoes (g : Frame) (sizPacket : Nat) (f : Frame) (r : ArpSend) : Prop where
  length : 28 ≤ ipLength g
  present : ipLength g - 28 ≤ sizPacket - 42
  size : r.sizPacket = 28 + (ipLength g - 28)
  type : slice r.ptPkt ucType 1 = [0]
  code : slice r.ptPkt ucCode 1 = slice g ucCode 1
  identifier : slice r.ptPkt usIdentifier 2 = slice g usIdentifier 2
  sequenceNumber : slice r.ptPkt usSequenceNumber 2 = slice g usSequenceNumber 2
  data : slice r.ptPkt aucData (ipLength g - 28) = slice g aucData (ipLength g - 28)
  fits : sizeofEth2Header + r.sizPacket ≤ sizPacket
  behind : ∀ a n, sizPacket ≤ a → slice r.ptPkt a n = slice f a n

variable {f g : Frame}

theorem slice_echoReply_header (g f : Frame) (siz : Nat) :
    slice (echoReply g f siz) ucType 1 = [0] ∧ slice (echoReply g f siz) ucCode 1 = slice g ucCode 1 ∧
      slice (echoReply g f siz) usIdentifier 2 = slice g usIdentifier 2 ∧
      slice (echoReply g f siz) usSequenceNumber 2 = slice g usSequenceNumber 2 := by
  have hself : ∀ (f : Frame) (o v : Nat), slice (put8 f o v) o 1 = [UInt8.ofNat v] :=
    fun f o v => holds_store f o [UInt8.ofNat v]
  have hdata : ∀ (f : Frame) (bs : List UInt8) {a n : Nat}, a + n ≤ 42 →
      slice (store f 42 bs) a n = slice f a n := fun f bs a n h => slice_store_out f (.inl h)
  simp only [echoReply, ucType, ucCode, usChecksum, usIdentifier, usSequenceNumber, aucData]
  simp (disch := omega) only [slice_put8_out, slice_put16_out, hdata, slice_put16_self, hself,
    toLe16_get16, and_true]
  refine ⟨rfl, ?_⟩
  simp [slice]

theorem slice_echoReply_data (g f : Frame) {siz : Nat} (hlo : 8 ≤ siz) (hhi : siz < 2 ^ 32) :
    slice (echoReply g f siz) aucData (siz - 8) = slice g aucData (siz - 8) := by
  simp only [echoReply, ucType, ucCode, usChecksum, usIdentifier, usSequenceNumber, aucData,
    sizeofIcmpPacket]
  rw [slice_put16_out _ _ (.inr (by decide)), sub32_of_le hlo hhi]
  generalize put16 _ 40 _ = f'
  have h := holds_store f' 42 (slice g 42 (siz - 8))
  rwa [Holds, length_slice] at h

theorem slice_echoReply_behind {siz a : Nat} (hlo : 8 ≤ siz) (hhi : siz < 2 ^ 32) (ha : 34 + siz ≤ a) (n : Nat) :
    slice (echoReply g f siz) a n = slice f a n := by
  have hdata : ∀ f : Frame, slice (store f 42 (slice g 42 (siz - 8))) a n = slice f a n := by
    intro f
    apply slice_store_out
    rw [length_slice]
    omega
  simp only [echoReply, ucType, ucCode, usChecksum, usIdentifier, usSequenceNumber, aucData,
    sizeofIcmpPacket, sub32_of_le hlo hhi]
  simp (disch := omega) only [slice_put8_out, slice_put16_out, hdata]

theorem echoes_of_length {sizPacket : Nat} (hsiz : 42 ≤ sizPacket) (hlen : 28 ≤ ipLength g)
    (hle : ipLength g + 14 ≤ sizPacket) (o : Ethernet) (uiIpOutputId : Nat) :
    Echoes g sizPacket f (ipv4SendPacket o uiIpOutputId (echoReply g f (sub32 (ipLength g) sizeofIpv4Header))
      (get32 g IpHdr.ulSrcIp) ipProtocolIcmp (sub32 (ipLength g) sizeofIpv4Header)).1 := by
  have hlt : ipLength g < 2 ^ 16 := mus2nus_lt _
  have hsub : sub32 (ipLength g) sizeofIpv4Header = ipLength g - 20 :=
    sub32_of_le (by unfold sizeofIpv4Header; omega) (by omega)
  have hsize : (ipv4SendPacket o uiIpOutputId (echoReply g f (ipLength g - 20)) (get32 g IpHdr.ulSrcIp)
      ipProtocolIcmp (ipLength g - 20)).1.sizPacket = ipLength g := by
    simp only [ipv4SendPacket, sizeofIpv4Header]
    rw [add32_of_lt (by omega)]
    omega
  obtain ⟨hrest, -⟩ := ipv4SendPacket_frame o uiIpOutputId (echoReply g f (ipLength g - 20))
    (get32 g IpHdr.ulSrcIp) ipProtocolIcmp (ipLength g - 20)
  obtain ⟨htype, hcode, hid, hseq⟩ := slice_echoReply_header g f (ipLength g - 20)
  have hdata := slice_echoReply_data g f (show 8 ≤ ipLength g - 20 by omega) (by omega)
  rw [Nat.sub_sub] at hdata
  rw [hsub]
  refine ⟨hlen, by omega, by omega, ?_, ?_, ?_, ?_, ?_, ?_, fun a n ha => ?_⟩
  · rw [hrest _ _ (by decide), htype]
  · rw [hrest _ _ (by decide), hcode]
  · rw [hrest _ _ (by decide), hid]
  · rw [hrest _ _ (by decide), hseq]
  · rw [hrest _ _ (by decide), hdata]
  · rw [hsize, sizeofEth2Header]
    omega
  · rw [hrest _ _ (by omega), slice_echoReply_behind (by omega) (by omega) (by omega)]

theorem icmpProcessPacket_of_request (o : Ethernet) (uiIpOutputId : Nat) (f : Frame) {sizPacket : Nat}
    (hsiz : 42 ≤ sizPacket) (htype : g ucType = 8) :
    icmpProcessPacket o uiIpOutputId g sizPacket (some f) =
      some (ipv4SendPacket o uiIpOutputId (echoReply g f (sub32 (ipLength g) sizeofIpv4Header))
        (get32 g IpHdr.ulSrcIp) ipProtocolIcmp (sub32 (ipLength g) sizeofIpv4Header)) := by
  have hreq : (g ucType).toNat = icmpEchoRequest := by
    rw [htype]
    rfl
  have hmin : sizPacket ≥ sizeofEth2Header + sizeofIpv4Header + sizeofIcmpPacket := hsiz
  rw [icmpProcessPacket, if_pos hmin, if_pos hreq]
  rfl

theorem request_of_icmpProcessPacket {o : Ethernet} {uiIpOutputId sizPacket : Nat} {p : Option Frame}
    {q : ArpSend × Nat} (h : icmpProcessPacket o uiIpOutputId g sizPacket p = some q) :
    42 ≤ sizPacket ∧ g ucType = 8 := by
  unfold icmpProcessPacket at h
  split_ifs at h with hsiz htype
  exact ⟨hsiz, UInt8.toNat_inj.mp htype⟩

/-- A request is answered as it should be exactly if its IP length covers both
headers and is not more than what was received. -/
theorem echoes_iff (o : Ethernet) (uiIpOutputId : Nat) (ptEthPkt : Frame) (sizPacket : Nat) (ptSendPacket : Frame) :
    (∀ r id, icmpProcessPacket o uiIpOutputId ptEthPkt sizPacket (some ptSendPacket) = some (r, id) →
      Echoes ptEthPkt sizPacket ptSendPacket r) ↔
      (42 ≤ sizPacket → ptEthPkt ucType = 8 →
        28 ≤ ipLength ptEthPkt ∧ 14 + ipLength ptEthPkt ≤ sizPacket) := by
  constructor
  · intro h hsiz htype
    have hecho := h _ _ (icmpProcessPacket_of_request o uiIpOutputId ptSendPacket hsiz htype)
    have hlen := hecho.length
    have hpresent := hecho.present
    omega
  · intro h r id hr
    obtain ⟨hsiz, htype⟩ := request_of_icmpProcessPacket hr
    obtain ⟨hlen, hle⟩ := h hsiz htype
    rw [icmpProcessPacket_of_request o uiIpOutputId ptSendPacket hsiz htype] at hr
    obtain rfl : _ = r := congrArg Prod.fst (Option.some.inj hr)
    exact echoes_of_length hsiz hlen (by omega) o uiIpOutputId

def longRequest : Frame := fun x =>
  ([0x02, 0x00, 0x00, 0x00, 0x00, 0x0a, 0x02, 0x00, 0x00, 0x00, 0x00, 0x01, 0x08, 0x00,
    0x45, 0x00, 0x05, 0xdc, 0x00, 0x01, 0x40, 0x00, 0x40, 0x01, 0xb3, 0xc4,
    192, 168, 0, 1, 192, 168, 0, 10, 0x08, 0x00, 0xf7, 0xff] : List UInt8).getD x 0

/-- The answer has 1454 bytes from behind the received frame. -/
theorem long_request_leaks :
    (∀ t : Table Unit, ipv4ProcessPacket t longRequest 60 = .icmp) ∧
      ¬ ∀ (o : Ethernet) (uiIpOutputId : Nat) (ptEthPkt : Frame) (sizPacket : Nat) (ptSendPacket : Frame)
        (r : ArpSend) (id : Nat),
        icmpProcessPacket o uiIpOutputId ptEthPkt sizPacket (some ptSendPacket) = some (r, id) →
          Echoes ptEthPkt sizPacket ptSendPacket r := by
  refine ⟨fun t => rfl, fun h => ?_⟩
  have hecho := h exampleEthernet 0 longRequest 60 (fun _ => 0) _ _
    (icmpProcessPacket_of_request exampleEthernet 0 (fun _ => 0) (by decide) rfl)
  exact absurd hecho.present (by decide)

end FlashApp.Icmp
