import FlashApp.UdpClient
import FlashApp.Machine

namespace FlashApp.Tftp

open Bytes Eth Interaction Udp UdpClient

inductive TftpState where
  | idle
  | init
  | transfer
  | finished
  | error
  deriving DecidableEq

/-- The statics of the client, together with the port list and the options
that it shares with the rest of the stack, the memory it loads to and the SHA
unit: the data bytes since its reset, and the length it was finalized with. -/
structure Client where
  uiPortCounter : Nat
  ptAssoc : AssocPtr
  pcTftpFileName : List UInt8
  uiExpectedBlockNr : Nat
  tState : TftpState
  ulLastGoodPacket : Nat
  uiRetryCnt : Nat
  uiBlockSize : Nat
  acBlockSize : List UInt8
  ulLoadedBytes : Nat
  pucDstBuffer : Nat
  memory : Memory
  aucShaData : List UInt8
  shaFinalized : Option Nat
  atUdpPortAssoc : Table Handler
  tEthernet : Ethernet

def tftpOpcodeReadReq : Nat := mus2nus 1
def tftpOpcodeData : Nat := mus2nus 3
def tftpOpcodeAck : Nat := mus2nus 4
def tftpOpcodeError : Nat := mus2nus 5
def tftpOpcodeOptionAck : Nat := mus2nus 6

def acOctet : List UInt8 := [0x6f, 0x63, 0x74, 0x65, 0x74, 0x00]

def acBlksize : List UInt8 := [0x62, 0x6c, 0x6b, 0x73, 0x69, 0x7a, 0x65, 0x00]

/-- Offsets in a frame with a `TFTP_PACKET_T`. -/
def usOpcode : Nat := uUdpData
def uPacket : Nat := uUdpData + 2
def aucData : Nat := uUdpData + 4

def tftpCleanup (s : Client) : Client :=
  let q := cleanup s.atUdpPortAssoc s.ptAssoc
  { s with atUdpPortAssoc := q.1, ptAssoc := q.2 }

def tftpClose (s : Client) (tState : TftpState) : Client := tftpCleanup { s with tState }

def tftpSendOpenPacket (s : Client) : ClientProg Int :=
  sendPacket s.atUdpPortAssoc s.ptAssoc
    (toLe16 tftpOpcodeReadReq ++ s.pcTftpFileName ++ [0] ++ acOctet ++ acBlksize ++ s.acBlockSize)

def tftpSendAckPacket (s : Client) : ClientProg Int :=
  sendPacket s.atUdpPortAssoc s.ptAssoc
    (toLe16 tftpOpcodeAck ++ toLe16 (mus2nus s.uiExpectedBlockNr))

/-- The destination and the SHA unit, which get the same bytes. -/
structure Sink where
  memory : Memory
  aucShaData : List UInt8

/-- The loop of `copy_data`, which runs once for each address from `pucSrcCnt`
on. The frame is not part of the destination area. -/
def copyBytes (m : Memory) : Nat → Nat → Nat → Sink → Sink
  | 0, _, _, k => k
  | n + 1, pucSrcCnt, pucDst, k =>
    let ucData := m pucSrcCnt
    copyBytes m n (pucSrcCnt + 1) (add32 pucDst 1)
      ⟨Function.update k.memory pucDst ucData, k.aucShaData ++ [ucData]⟩

def copyData (m : Memory) (pucDst pucSrc sizSrc : Nat) (k : Sink) : Sink :=
  let pucSrcEnd := add32 pucSrc sizSrc
  copyBytes m (pucSrcEnd - pucSrc) pucSrc pucDst k

/-- A good packet refills the retries. -/
def goodPacket (s : Client) : ClientProg Client := do
  let ulMs ← systimeGetMs
  return { s with ulLastGoodPacket := ulMs, uiRetryCnt := s.tEthernet.ucTftpRetries }

/-- `ptAssoc->uiRemotePort = uiPort`. The pointer is only used while the
connection is open. -/
def setRemotePort (s : Client) (uiPort : Nat) : Client :=
  match s.ptAssoc with
  | some i => { s with
      atUdpPortAssoc := Function.update s.atUdpPortAssoc i
        { s.atUdpPortAssoc i with uiRemotePort := uiPort } }
  | none => s

def optionsMatch (s : Client) (m : Memory) (ptPkt : Nat) : Bool :=
  slice m (ptPkt + uPacket) acBlksize.length = acBlksize ∧
    slice m (ptPkt + uPacket + acBlksize.length) s.acBlockSize.length = s.acBlockSize

def tftpProcessInit (s : Client) (m : Memory) (ptPkt sizTftpLength : Nat) : ClientProg Client := do
  let uiOpcode := get16 m (ptPkt + usOpcode)
  if uiOpcode = tftpOpcodeError then
    return tftpClose s .error
  else if uiOpcode = tftpOpcodeOptionAck then
    if sizTftpLength ≠ 2 + acBlksize.length + s.acBlockSize.length then
      return tftpClose s .error
    else if optionsMatch s m ptPkt then
      let s := setRemotePort s (get16 m (ptPkt + UdpHdr.usSrcPort))
      let s := { s with uiExpectedBlockNr := 0 }
      let _ ← tftpSendAckPacket s
      let s ← goodPacket s
      return { s with tState := .transfer }
    else
      return tftpClose s .error
  else if uiOpcode = tftpOpcodeData then
    return tftpClose s .error
  else
    return s

def tftpStoreBlock (s : Client) (m : Memory) (ptPkt sizData : Nat) : Client :=
  if sizData ≠ 0 then
    let k := copyData m s.pucDstBuffer (ptPkt + aucData) sizData ⟨s.memory, s.aucShaData⟩
    { s with
      memory := k.memory
      aucShaData := k.aucShaData
      pucDstBuffer := add32 s.pucDstBuffer sizData
      ulLoadedBytes := add32 s.ulLoadedBytes sizData }
  else s

def uiWantedBlockNr (s : Client) : Nat := (s.uiExpectedBlockNr + 1) &&& 0xffff

def tftpProcessBlock (s : Client) (m : Memory) (ptPkt sizData : Nat) : ClientProg Client := do
  let s := { s with uiExpectedBlockNr := uiWantedBlockNr s }
  let s := tftpStoreBlock s m ptPkt sizData
  let _ ← tftpSendAckPacket s
  let s ← goodPacket s
  if sizData < s.uiBlockSize then
    return { tftpClose s .finished with shaFinalized := some s.ulLoadedBytes }
  else
    return s

def tftpProcessTransfer (s : Client) (m : Memory) (ptPkt sizTftpLength : Nat) : ClientProg Client :=
  let uiOpcode := get16 m (ptPkt + usOpcode)
  if uiOpcode = tftpOpcodeError then
    pure (tftpClose s .error)
  else if uiOpcode = tftpOpcodeData ∧ mus2nus (get16 m (ptPkt + uPacket)) = uiWantedBlockNr s then
    tftpProcessBlock s m ptPkt (sub32 (sub32 sizTftpLength 2) 2)
  else
    pure s

def tftpRecHandler (s : Client) (m : Memory) (pvData sizTftpLength : Nat) : ClientProg Client :=
  match s.tState with
  | .idle | .finished | .error => pure s
  | .init => tftpProcessInit s m pvData sizTftpLength
  | .transfer => tftpProcessTransfer s m pvData sizTftpLength

def tftpInit (s : Client) : Client :=
  { s with uiPortCounter := 1024, ptAssoc := none, tState := .idle }

/-- The digits of the powers of ten, without leading zeros, and a zero at the
end. -/
def printDigits : List Nat → Nat → Bool → List UInt8
  | [], uiNum, _ => [UInt8.ofNat (0x30 ||| uiNum), 0]
  | n :: auiNumToAscii, uiNum, iPrintZeros =>
    let iCnt := uiNum / n
    if iPrintZeros ∨ iCnt > 0 then
      UInt8.ofNat (0x30 ||| iCnt) :: printDigits auiNumToAscii (uiNum % n) true
    else printDigits auiNumToAscii (uiNum % n) false

def printBlocksize (uiNum : Nat) : List UInt8 := printDigits [10000, 1000, 100, 10] uiNum false

def tftpAssoc (s : Client) : Assoc Handler :=
  ⟨mus2nus s.uiPortCounter, s.tEthernet.ulTftpIp, mus2nus s.tEthernet.usTftpPort, .tftpRecHandler, 0⟩

def tftpPrepare (s : Client) (pucDst uiBlkSize : Nat) : Client :=
  let q := udpRegisterPort s.atUdpPortAssoc (tftpAssoc s)
  { s with
    uiBlockSize := uiBlkSize
    pucDstBuffer := pucDst
    acBlockSize := printBlocksize uiBlkSize
    uiPortCounter := if s.uiPortCounter + 1 > 65535 then 1024 else s.uiPortCounter + 1
    aucShaData := []
    shaFinalized := none
    ulLoadedBytes := 0
    atUdpPortAssoc := q.1
    ptAssoc := q.2 }

def tftpOpen (s : Client) (pcFileName : List UInt8) (pucDst uiBlkSize : Nat) :
    ClientProg (Int × Client) := do
  let s := tftpPrepare s pucDst uiBlkSize
  match s.ptAssoc with
  | none => return (-1, s)
  | some _ =>
    let s := { s with pcTftpFileName := pcFileName }
    let iResult ← tftpSendOpenPacket s
    if iResult = 0 then
      let s ← goodPacket { s with tState := .init }
      return (iResult, s)
    else
      return (iResult, tftpCleanup s)

def tftpResend (s : Client) : ClientProg Int :=
  if s.tState = .init then tftpSendOpenPacket s else tftpSendAckPacket s

def tftpTimer (s : Client) : ClientProg Client := do
  if s.tState = .init ∨ s.tState = .transfer then
    if ← systimeHandleIsElapsed s.ulLastGoodPacket s.tEthernet.usTftpTimeout then
      if 0 < s.uiRetryCnt then
        let _ ← tftpResend s
        let ulMs ← systimeGetMs
        return { s with ulLastGoodPacket := ulMs, uiRetryCnt := s.uiRetryCnt - 1 }
      else
        return tftpClose s .error
    else
      return s
  else
    return s

end FlashApp.Tftp
