import FlashApp.Eth
import FlashApp.Loops

namespace FlashApp.Udp

open Bytes Eth Slots

def checksumLoop : List UInt8 → Nat → Nat → Nat
  | [], _, ulChkSum => ulChkSum
  | uiData :: pucData, sizPos, ulChkSum =>
    let sizPos := sizPos + 1
    let uiShift := (sizPos &&& 1) <<< 3
    let ulChkSum := ulChkSum + uiData.toNat <<< uiShift
    checksumLoop pucData sizPos ((ulChkSum &&& 0xffff) + (ulChkSum >>> 16))

def checksumAddComplement (f : Frame) (pvData sizLen : Nat) : Nat :=
  let ulChkSum := checksumLoop (slice f pvData sizLen) 0 0
  if ulChkSum ≠ 0xffff then ulChkSum ^^^ 0xffff else ulChkSum

/-- The frame as it is left behind, and the checksum. -/
def udpBuildChecksum (f : Frame) (sizUdpPacketSize : Nat) : Frame × Nat :=
  let uiIpChecksum := get16 f IpHdr.usChecksum
  let f := put16 f IpHdr.usChecksum (get16 f UdpHdr.usLength)
  let uiUdpChecksum := get16 f UdpHdr.usChecksum
  let f := put16 f UdpHdr.usChecksum 0
  let uiMyUdpChecksum := checksumAddComplement f IpHdr.ucProtocol (sizUdpPacketSize + 11)
  let f := put16 f IpHdr.usChecksum uiIpChecksum
  let f := put16 f UdpHdr.usChecksum uiUdpChecksum
  (f, uiMyUdpChecksum % 2 ^ 16)

/-- `UDP_ASSOCIATION_T`. A function pointer is an element of `H`. -/
structure Assoc (H : Type) where
  uiLocalPort : Nat
  ulRemoteIp : Nat
  uiRemotePort : Nat
  pfnRecHandler : H
  pvUser : Nat
  deriving DecidableEq

abbrev Table (H : Type) := Fin 8 → Assoc H

/-- A pointer to a table entry; `none` is a pointer outside the array. -/
abbrev AssocPtr := Option (Fin 8)

variable {H : Type}

def udpInit (t : Table H) : Table H := fun i => { t i with uiLocalPort := 0 }

def udpRegisterPort (t : Table H) (tAssoc : Assoc H) : Table H × AssocPtr :=
  match find fun i => (t i).uiLocalPort == 0 with
  | some i => (Function.update t i tAssoc, some i)
  | none => (t, none)

def udpUnregisterPort (t : Table H) : AssocPtr → Table H
  | some i => Function.update t i { t i with uiLocalPort := 0 }
  | none => t

structure HandlerCall (H : Type) where
  ptAssocHit : Fin 8
  pfnRecHandler : H
  pvData : Frame
  sizLength : Nat
  pvUser : Nat

def udpProcessPacket (t : Table H) (ptPkt : Frame) (sizPacket : Nat) :
    Frame × Option (HandlerCall H) :=
  if sizPacket ≥ sizeofEth2Header + sizeofIpv4Header + sizeofUdpHeader then
    let sizUdpPacketSize := mus2nus (get16 ptPkt UdpHdr.usLength)
    let sizTransferedSize := sizPacket - sizeofEth2Header - sizeofIpv4Header
    if sizUdpPacketSize ≤ sizTransferedSize then
      let q := udpBuildChecksum ptPkt sizUdpPacketSize
      let ptPkt := q.1
      let uiMyUdpChecksum := q.2
      let uiUdpChecksum := get16 ptPkt UdpHdr.usChecksum
      if uiMyUdpChecksum = uiUdpChecksum then
        let uiDstPort := get16 ptPkt UdpHdr.usDstPort
        match find fun i => (t i).uiLocalPort == uiDstPort with
        | some i =>
          (ptPkt, some ⟨i, (t i).pfnRecHandler, ptPkt, sub32 sizUdpPacketSize sizeofUdpHeader, (t i).pvUser⟩)
        | none => (ptPkt, none)
      else (ptPkt, none)
    else (ptPkt, none)
  else (ptPkt, none)

def ipVersion : Nat := 0x45
def ipProtocolUdp : Nat := 0x11

def ipv4GetDestinationIp (o : Ethernet) (ulDstIp : Nat) : Nat :=
  if o.ulNetmask ≠ 0 ∧ ulDstIp ≠ ipAdr 0xff 0xff 0xff 0xff ∧
      ulDstIp &&& ipAdr 0xf0 0x00 0x00 0x00 ≠ ipAdr 0xe0 0x00 0x00 0x00 then
    let ulMyNetwork := o.ulIp &&& o.ulNetmask
    let ulDstNetwork := ulDstIp &&& o.ulNetmask
    if ulMyNetwork ≠ ulDstNetwork then o.ulGatewayIp else ulDstIp
  else ulDstIp

structure ArpSend where
  ptPkt : Frame
  sizPacket : Nat
  ulDstIp : Nat

/-- The second component is the next value of `uiIpOutputId`. -/
def ipv4SendPacket (o : Ethernet) (uiIpOutputId : Nat) (f : Frame)
    (ulDstIp uiProtocol sizIpUserData : Nat) : ArpSend × Nat :=
  let sizIpPacket := add32 sizeofIpv4Header sizIpUserData
  let f := put8 f IpHdr.ucVersion ipVersion
  let f := put8 f IpHdr.ucDSF 0
  let f := put16 f IpHdr.usLength (mus2nus sizIpPacket)
  let f := put16 f IpHdr.usId (mus2nus uiIpOutputId)
  let f := put16 f IpHdr.usFlags (mus2nus 0x4000)
  let f := put8 f IpHdr.ucTTL 64
  let f := put8 f IpHdr.ucProtocol uiProtocol
  let f := put16 f IpHdr.usChecksum 0
  let f := put32 f IpHdr.ulSrcIp o.ulIp
  let f := put32 f IpHdr.ulDstIp ulDstIp
  let f := put16 f IpHdr.usChecksum (mus2nus (checksumAddComplement f IpHdr.ucVersion sizeofIpv4Header))
  (⟨f, sizIpPacket, ipv4GetDestinationIp o ulDstIp⟩, add32 uiIpOutputId 1)

/-- Nothing is sent on a pointer outside the array. -/
def udpSendPacket (o : Ethernet) (uiIpOutputId : Nat) (t : Table H) (f : Frame)
    (sizUdpUserData : Nat) : AssocPtr → Option (ArpSend × Nat)
  | none => none
  | some i =>
    let sizPacketSize := sizeofUdpHeader + sizUdpUserData
    let f := put8 f IpHdr.ucProtocol ipProtocolUdp
    let f := put32 f IpHdr.ulSrcIp o.ulIp
    let f := put32 f IpHdr.ulDstIp (t i).ulRemoteIp
    let f := put16 f UdpHdr.usSrcPort (t i).uiLocalPort
    let f := put16 f UdpHdr.usDstPort (t i).uiRemotePort
    let f := put16 f UdpHdr.usLength (mus2nus sizPacketSize)
    let q := udpBuildChecksum f sizPacketSize
    let f := put16 q.1 UdpHdr.usChecksum q.2
    some (ipv4SendPacket o uiIpOutputId f (t i).ulRemoteIp ipProtocolUdp sizPacketSize)

theorem udpRegisterPort_cases (t : Table H) (tAssoc : Assoc H) :
    (∃ i, (t i).uiLocalPort = 0 ∧ udpRegisterPort t tAssoc = (Function.update t i tAssoc, some i)) ∨
      (∀ i, (t i).uiLocalPort ≠ 0) ∧ udpRegisterPort t tAssoc = (t, none) := by
  cases h : find fun i => (t i).uiLocalPort == 0 with
  | some i => exact .inl ⟨i, by simpa using find_some h, by simp only [udpRegisterPort, h]⟩
  | none => exact .inr ⟨by simpa using find_eq_none.mp h, by simp only [udpRegisterPort, h]⟩

theorem udpBuildChecksum_frame (f : Frame) (siz : Nat) : (udpBuildChecksum f siz).1 = f := by
  funext x
  have hip := ofNat_get16 f IpHdr.usChecksum
  have hudp : get16 (put16 f IpHdr.usChecksum (get16 f UdpHdr.usLength)) UdpHdr.usChecksum =
      get16 f UdpHdr.usChecksum := rfl
  have hudp' := ofNat_get16 f UdpHdr.usChecksum
  simp only [udpBuildChecksum, hudp, put16_apply, hip.1, hip.2, hudp'.1, hudp'.2]
  split_ifs with h1 h2 h3 h4
  · rw [h1]
  · rw [h2]
  · rw [h3]
  · rw [h4]
  · rfl

/-- The packet passes the tests of `udp_process_packet`. -/
def Accepted (ptPkt : Frame) (sizPacket : Nat) : Prop :=
  sizPacket ≥ sizeofEth2Header + sizeofIpv4Header + sizeofUdpHeader ∧
    mus2nus (get16 ptPkt UdpHdr.usLength) ≤ sizPacket - sizeofEth2Header - sizeofIpv4Header ∧
    (udpBuildChecksum ptPkt (mus2nus (get16 ptPkt UdpHdr.usLength))).2 = get16 ptPkt UdpHdr.usChecksum

instance (ptPkt : Frame) (sizPacket : Nat) : Decidable (Accepted ptPkt sizPacket) :=
  inferInstanceAs (Decidable (_ ∧ _ ∧ _))

def handlerCall (t : Table H) (ptPkt : Frame) (i : Fin 8) : HandlerCall H :=
  ⟨i, (t i).pfnRecHandler, ptPkt, sub32 (mus2nus (get16 ptPkt UdpHdr.usLength)) sizeofUdpHeader,
    (t i).pvUser⟩

theorem udpProcessPacket_eq (t : Table H) (f : Frame) (siz : Nat) :
    udpProcessPacket t f siz =
      (f, if Accepted f siz then
        (find fun i => (t i).uiLocalPort == get16 f UdpHdr.usDstPort).map (handlerCall t f) else none) := by
  by_cases hA : Accepted f siz
  · rw [if_pos hA]
    obtain ⟨h1, h2, h3⟩ := hA
    simp only [udpProcessPacket, udpBuildChecksum_frame, h1, h2, h3, ↓reduceIte]
    cases find fun i => (t i).uiLocalPort == get16 f UdpHdr.usDstPort <;> rfl
  · rw [if_neg hA]
    simp only [udpProcessPacket, udpBuildChecksum_frame]
    split_ifs with h1 h2 h3
    · exact absurd ⟨h1, h2, h3⟩ hA
    · rfl
    · rfl
    · rfl

end FlashApp.Udp
