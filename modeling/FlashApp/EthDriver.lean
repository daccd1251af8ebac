import FlashApp.Bytes
import FlashApp.Interaction
import FlashApp.Trace
import FlashApp.Lwip

namespace FlashApp.EthDriver

open Bytes Interaction Trace Lwip

/-- The start addresses of the internal RAM segments: one after the other with
a size of 0x20000 bytes, and with the segment number in bits 17 and 18. -/
structure IntRam where
  aulIntRamStart : Fin 4 → Nat
  base : Nat
  base_pos : 0 < base
  base_mod : base % 0x80000 = 0
  start_eq : ∀ i, aulIntRamStart i = base + 0x20000 * i
  start_lt : base + 0x80000 ≤ 2 ^ 32

def ramSegment (ulFifoValue : Nat) : Nat := (ulFifoValue &&& 0x03c00000) >>> 22

def frameNr (ulFifoValue : Nat) : Nat := (ulFifoValue &&& 0x003f0000) >>> 16

def frameLen (ulFifoValue : Nat) : Nat := (ulFifoValue &&& 0x000007ff) >>> 0

def buffer (ulFifoValue : Nat) : Nat × Nat := (ramSegment ulFifoValue, frameNr ulFifoValue)

structure FifoValue where
  ulFifoValue : Nat
  lt : ulFifoValue < 2 ^ 32
  segment_lt : ramSegment ulFifoValue < 4

def convertFifoValueToPacketPointer (ram : IntRam) (v : FifoValue) : Nat :=
  add32 (ram.aulIntRamStart ⟨ramSegment v.ulFifoValue, v.segment_lt⟩)
    (1560 * frameNr v.ulFifoValue)

def convertPacketPointerToFifoValue (pvPacket : Nat) : Nat :=
  (((pvPacket >>> 17) &&& 3) <<< 22) ||| (((pvPacket &&& 0x1ffff) / 1560) <<< 16)

theorem ramSegment_eq (v : Nat) : ramSegment v = v / 2 ^ 22 % 2 ^ 4 := by
  rw [ramSegment, Nat.shiftRight_and_distrib, Nat.shiftRight_eq_div_pow]
  exact Nat.and_two_pow_sub_one_eq_mod _ 4

theorem frameNr_eq (v : Nat) : frameNr v = v / 2 ^ 16 % 2 ^ 6 := by
  rw [frameNr, Nat.shiftRight_and_distrib, Nat.shiftRight_eq_div_pow]
  exact Nat.and_two_pow_sub_one_eq_mod _ 6

theorem buffer_fields {seg nr low : Nat} (hseg : seg < 2 ^ 4) (hnr : nr < 2 ^ 6)
    (hlow : low < 2 ^ 16) : buffer (seg * 2 ^ 22 + nr * 2 ^ 16 + low) = (seg, nr) := by
  rw [buffer, ramSegment_eq, frameNr_eq, Prod.mk.injEq]
  omega

theorem frameNr_lt (v : Nat) : frameNr v < 2 ^ 6 := by
  rw [frameNr_eq]
  exact Nat.mod_lt _ (by decide)

/-- Frame buffer 63 ends in its segment, so the pointer to a frame buffer has
the segment number in bits 17 and 18. -/
theorem packetPointer_eq (ram : IntRam) (v : FifoValue) :
    convertFifoValueToPacketPointer ram v =
      ram.base + 0x20000 * ramSegment v.ulFifoValue + 1560 * frameNr v.ulFifoValue := by
  have hseg := v.segment_lt
  have hnr := frameNr_lt v.ulFifoValue
  have hlt := ram.start_lt
  rw [convertFifoValueToPacketPointer, ram.start_eq, add32_of_lt (by simp only; omega)]

theorem packetPointer_ne_zero (ram : IntRam) (v : FifoValue) :
    convertFifoValueToPacketPointer ram v ≠ 0 := by
  have hpos := ram.base_pos
  rw [packetPointer_eq]
  omega

theorem fifoValue_packetPointer (ram : IntRam) (v : FifoValue) :
    convertPacketPointerToFifoValue (convertFifoValueToPacketPointer ram v) =
      ramSegment v.ulFifoValue * 2 ^ 22 + frameNr v.ulFifoValue * 2 ^ 16 := by
  have hseg := v.segment_lt
  have hnr := frameNr_lt v.ulFifoValue
  have hmod := ram.base_mod
  rw [packetPointer_eq]
  generalize ramSegment v.ulFifoValue = seg at *
  generalize frameNr v.ulFifoValue = nr at *
  have hseg' : ((ram.base + 0x20000 * seg + 1560 * nr) >>> 17) &&& 3 = seg := by
    rw [Nat.shiftRight_eq_div_pow, show (3 : Nat) = 2 ^ 2 - 1 from rfl,
      Nat.and_two_pow_sub_one_eq_mod]
    have hdiv : (ram.base + 0x20000 * seg + 1560 * nr) / 2 ^ 17 = ram.base / 0x20000 + seg := by
      omega
    rw [hdiv]
    omega
  have hnr' : ((ram.base + 0x20000 * seg + 1560 * nr) &&& 0x1ffff) / 1560 = nr := by
    rw [show (0x1ffff : Nat) = 2 ^ 17 - 1 from rfl, Nat.and_two_pow_sub_one_eq_mod]
    omega
  rw [convertPacketPointerToFifoValue, hseg', hnr', Nat.shiftLeft_eq nr,
    ← Nat.shiftLeft_add_eq_or_of_lt (by omega), Nat.shiftLeft_eq]

theorem buffer_roundTrip (ram : IntRam) (v : FifoValue) :
    buffer (convertPacketPointerToFifoValue (convertFifoValueToPacketPointer ram v)) =
      buffer v.ulFifoValue := by
  have hseg := v.segment_lt
  rw [fifoValue_packetPointer]
  have h := @buffer_fields (ramSegment v.ulFifoValue) (frameNr v.ulFifoValue) 0 (by omega)
    (frameNr_lt _) (by decide)
  rwa [Nat.add_zero] at h

theorem request_eq (ram : IntRam) (v : FifoValue) {siz : Nat} (hsiz : siz < 2 ^ 11) :
    (convertPacketPointerToFifoValue (convertFifoValueToPacketPointer ram v) ||| 0x4000) ||| siz <<< 0 =
      ramSegment v.ulFifoValue * 2 ^ 22 + frameNr v.ulFifoValue * 2 ^ 16 + (0x4000 + siz) := by
  have hlow : 0x4000 ||| siz <<< 0 = 0x4000 + siz := by
    rw [Nat.shiftLeft_zero, show 0x4000 = 1 <<< 14 from rfl,
      Nat.shiftLeft_add_eq_or_of_lt (by omega)]
  have hsum : ramSegment v.ulFifoValue * 2 ^ 22 + frameNr v.ulFifoValue * 2 ^ 16 =
      (ramSegment v.ulFifoValue * 2 ^ 6 + frameNr v.ulFifoValue) <<< 16 := by
    rw [Nat.shiftLeft_eq]
    omega
  rw [fifoValue_packetPointer, Nat.or_assoc, hlow, hsum,
    ← Nat.shiftLeft_add_eq_or_of_lt (by omega)]

theorem buffer_request (ram : IntRam) (v : FifoValue) {siz : Nat} (hsiz : siz < 2 ^ 11) :
    buffer ((convertPacketPointerToFifoValue (convertFifoValueToPacketPointer ram v) ||| 0x4000) |||
      siz <<< 0) = buffer v.ulFifoValue := by
  have hseg := v.segment_lt
  rw [request_eq ram v hsiz]
  exact buffer_fields (by omega) (frameNr_lt _) (by omega)

theorem frameLen_request (ram : IntRam) (v : FifoValue) {siz : Nat} (hsiz : siz < 2 ^ 11) :
    frameLen ((convertPacketPointerToFifoValue (convertFifoValueToPacketPointer ram v) ||| 0x4000) |||
      siz <<< 0) = siz := by
  rw [request_eq ram v hsiz, frameLen, Nat.shiftRight_zero, show (0x7ff : Nat) = 2 ^ 11 - 1 from rfl,
    Nat.and_two_pow_sub_one_eq_mod]
  omega

/-- What the driver and the functions around it call: registers of the MAC and
functions of lwIP. -/
inductive EthCall where
  | linkStatus
  | fillLevel (uiFifoNr : Nat)
  | readFifo (uiFifoNr : Nat)
  | writeFifo (uiFifoNr ulFifoValue : Nat)
  | netifSetLinkDown
  | pbufAlloc (usPacketSize : Nat)
  | pbufTake (pvFrame usPacketSize : Nat)
  | pbufCopyPartial (pvFrame totLen : Nat)
  | pbufFree
  | input
  | sysCheckTimeouts

/-- The stack can call `netif_output` while it handles a frame or a timeout:
it answers with the lengths of the pbuf chains that it sends. -/
abbrev EthAnswer : EthCall → Type
  | .linkStatus | .fillLevel _ => Nat
  | .readFifo _ => FifoValue
  | .pbufAlloc _ => Bool
  | .input => ErrT × List Nat
  | .sysCheckTimeouts => List Nat
  | _ => Unit

abbrev EthProg := Prog EthCall EthAnswer

abbrev EthEvent := Event EthCall EthAnswer

abbrev call (c : EthCall) : EthProg (EthAnswer c) := perform c

structure EthPort where
  ram : IntRam
  uiXcPort : Nat

def EthPort.fifoEmpty (port : EthPort) : Nat := port.uiXcPort * 8 + 0
def EthPort.fifoIndLo (port : EthPort) : Nat := port.uiXcPort * 8 + 2
def EthPort.fifoReqLo (port : EthPort) : Nat := port.uiXcPort * 8 + 4

def drvEthXcGetLinkStatus : EthProg Nat := do
  let ulValue ← call .linkStatus
  if ulValue ≠ 0 then return 1 else return 0

/-- One pointer is kept for the MAC. -/
def drvEthXcGetEmptyPacket (port : EthPort) : EthProg Nat := do
  let ulValue ← call (.fillLevel port.fifoEmpty)
  if ulValue > 1 then
    let ulFifoValue ← call (.readFifo port.fifoEmpty)
    return convertFifoValueToPacketPointer port.ram ulFifoValue
  else
    return 0

def drvEthXcReleasePacket (port : EthPort) (pvPacket : Nat) : EthProg Unit :=
  call (.writeFifo port.fifoEmpty (convertPacketPointerToFifoValue pvPacket))

/-- Too short packets are padded, oversized ones cropped. -/
def frameSize (sizPacket : Nat) : Nat :=
  if sizPacket < 60 then 60 else if sizPacket > 1518 then 1518 else sizPacket

def drvEthXcSendPacket (port : EthPort) (pvPacket sizPacket : Nat) : EthProg Unit :=
  call (.writeFifo port.fifoReqLo
    ((convertPacketPointerToFifoValue pvPacket ||| 0x4000) ||| frameSize sizPacket <<< 0))

def drvEthXcGetReceivedPacket (port : EthPort) : EthProg (Nat × Nat) := do
  let ulFillLevel ← call (.fillLevel port.fifoIndLo)
  if ulFillLevel ≠ 0 then
    let ulFifoValue ← call (.readFifo port.fifoIndLo)
    return (convertFifoValueToPacketPointer port.ram ulFifoValue, frameLen ulFifoValue.ulFifoValue)
  else
    return (0, 0)

/-- Without a port the interface has no state. -/
def netifOutput (port : Option EthPort) (totLen : Nat) : EthProg ErrT :=
  match port with
  | none => return .val
  | some port => do
    let pvFrame ← drvEthXcGetEmptyPacket port
    if pvFrame = 0 then
      return .buf
    else
      call (.pbufCopyPartial pvFrame totLen)
      drvEthXcSendPacket port pvFrame totLen
      return .ok

def netifOutputs (port : EthPort) : List Nat → EthProg Unit
  | [] => return ()
  | totLen :: rest => do
    let _ ← netifOutput (some port) totLen
    netifOutputs port rest

/-- Feed a received frame to lwIP. Its buffer is given back before that. -/
def processFrame (port : EthPort) (pvFrame sizFrame : Nat) : EthProg Unit := do
  let usPacketSize := sizFrame % 2 ^ 16
  let ptPBuf ← call (.pbufAlloc usPacketSize)
  if ptPBuf then
    call (.pbufTake pvFrame usPacketSize)
    drvEthXcReleasePacket port pvFrame
    let (tResult, outputs) ← call .input
    netifOutputs port outputs
    if tResult ≠ .ok then call .pbufFree
  else
    drvEthXcReleasePacket port pvFrame

def networkCyclicProcess (port : Option EthPort) : EthProg Unit :=
  match port with
  | none => return ()
  | some port => do
    let uiLinkState ← drvEthXcGetLinkStatus
    if uiLinkState = 0 then
      call .netifSetLinkDown
    else
      let (pvFrame, sizFrame) ← drvEthXcGetReceivedPacket port
      if pvFrame ≠ 0 then
        processFrame port pvFrame sizFrame
    let outputs ← call .sysCheckTimeouts
    netifOutputs port outputs

inductive Op where
  | networkCyclicProcess
  | netifOutput (totLen : Nat)

def Op.prog (port : Option EthPort) : Op → EthProg Unit
  | .networkCyclicProcess => EthDriver.networkCyclicProcess port
  | .netifOutput totLen => do
    let _ ← EthDriver.netifOutput port totLen
    return ()

def session (port : Option EthPort) : List Op → EthProg Unit
  | [] => return ()
  | op :: ops => do
    op.prog port
    session port ops

end FlashApp.EthDriver
