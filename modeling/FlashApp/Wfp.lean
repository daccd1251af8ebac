import FlashApp.Flasher

namespace FlashApp.Wfp

open Bytes Interaction Flasher

/-- What `processWfp` reads of the device info: where the image is. -/
structure WfpImage where
  pucWfpImage : Nat
  sizWfpImage : Nat

/-- Check that an area is erased and erase it if it is not. The second check
looks at the returned message only, not at the result of the call. -/
def ensureErased (uInfo : List UInt8) (ulAlignedStartAdr ulAlignedEndAdr : Nat) :
    FlashProg Int := do
  let (tResult, ulMessage) ← call (.spiIsErased uInfo ulAlignedStartAdr ulAlignedEndAdr)
  if tResult = .ok then
    if ulMessage = 0xff then
      return 0
    else
      let tResult ← call (.spiErase uInfo ulAlignedStartAdr ulAlignedEndAdr)
      if tResult = .ok then
        let (_, ulMessage) ← call (.spiIsErased uInfo ulAlignedStartAdr ulAlignedEndAdr)
        if ulMessage = 0xff then return 0 else return -1
      else
        return -1
  else
    return -1

def flashSpi (uInfo : List UInt8) (ulOffsetInBytes pucData ulDataSizeInBytes : Nat) :
    FlashProg Int := do
  let (tResult, ulAlignedStartAdr, ulAlignedEndAdr) ←
    call (.spiGetEraseArea uInfo ulOffsetInBytes (add32 ulOffsetInBytes ulDataSizeInBytes))
  if tResult = .ok then
    let iResult ← ensureErased uInfo ulAlignedStartAdr ulAlignedEndAdr
    if iResult = 0 then
      let tResult ← call (.spiFlash uInfo ulOffsetInBytes ulDataSizeInBytes pucData)
      if tResult = .ok then return 0 else return -1
    else
      return iResult
  else
    return -1

def flashSdio (tDeviceDesc : DeviceDescription) (ulOffsetInBytes pucData ulDataSizeInBytes : Nat) :
    FlashProg Int := do
  let tResult ← call (.sdioWrite tDeviceDesc ulOffsetInBytes ulDataSizeInBytes pucData)
  if tResult = .ok then return 0 else return -1

/-- The result stays at -1 for a bus without a case of the switch. -/
def flashDataFile (api : Headers) (tBus : Nat) (tDeviceDesc : DeviceDescription)
    (ulOffsetInBytes pucData ulDataSizeInBytes : Nat) : FlashProg Int := do
  note (.flashDataFile tBus tDeviceDesc ulOffsetInBytes pucData ulDataSizeInBytes)
  if tBus = api.busParFlash then
    return -1
  else if tBus = api.busSpi then
    flashSpi tDeviceDesc.uInfo ulOffsetInBytes pucData ulDataSizeInBytes
  else if tBus = api.busIFlash then
    return -1
  else if tBus = api.busSdio then
    flashSdio tDeviceDesc ulOffsetInBytes pucData ulDataSizeInBytes
  else
    return -1

def detectDevice (api : Headers) (uiBus uiUnit uiCs : Nat) :
    FlashProg (Option DeviceDescription) := do
  note (.clearDevice uiBus uiUnit uiCs)
  if uiBus = api.busParFlash then
    return none
  else if uiBus = api.busSpi then
    let (tResult, tSpiInfo) ← call (.spiDetect (spiConfiguration api uiUnit uiCs))
    if tResult = .ok then return some (.detected api uiBus tSpiInfo) else return none
  else if uiBus = api.busIFlash then
    return none
  else if uiBus = api.busSdio then
    let (tResult, tSdioHandle) ← call .sdioDetectWrap
    if tResult = .ok then return some (.detected api uiBus tSdioHandle) else return none
  else
    return none

structure WfpState where
  pucDataCnt : Nat
  uiLastBus : Nat
  uiLastUnit : Nat
  uiLastCs : Nat
  tDeviceDesc : DeviceDescription
  iResult : Int

def headerBus (m : Memory) (a : Nat) : Nat := (m a).toNat
def headerUnit (m : Memory) (a : Nat) : Nat := (m (add32 a 1)).toNat
def headerCs (m : Memory) (a : Nat) : Nat := (m (add32 a 2)).toNat
def headerOffset (m : Memory) (a : Nat) : Nat := word m (add32 a 3)
def headerSize (m : Memory) (a : Nat) : Nat := word m (add32 a 7)

def WfpState.withDevice (s : WfpState) (uiBus uiUnit uiCs : Nat) (tDeviceDesc : DeviceDescription) :
    WfpState :=
  { s with tDeviceDesc := tDeviceDesc, uiLastBus := uiBus, uiLastUnit := uiUnit, uiLastCs := uiCs }

/-- Use the last device again if it is the one of this chunk, else detect it. -/
def selectDevice (api : Headers) (s : WfpState) (uiBus uiUnit uiCs : Nat) :
    FlashProg (Option WfpState) := do
  if s.uiLastBus = uiBus ∧ s.uiLastUnit = uiUnit ∧ s.uiLastCs = uiCs then
    return some s
  else
    match ← detectDevice api uiBus uiUnit uiCs with
    | none => return none
    | some tDeviceDesc => return some (s.withDevice uiBus uiUnit uiCs tDeviceDesc)

/-- One round of the chunk loop. Leaving the loop gives the result of
`processWfp`. -/
def processChunk (api : Headers) (m : Memory) (pucDataEnd : Nat) (s : WfpState) :
    FlashProg (WfpState ⊕ Int) := do
  note (.loopHead s.pucDataCnt)
  if s.pucDataCnt < pucDataEnd then
    if add32 s.pucDataCnt 12 > pucDataEnd then
      return .inr (-1)
    else
      let uiBus := headerBus m s.pucDataCnt
      let uiUnit := headerUnit m s.pucDataCnt
      let uiCs := headerCs m s.pucDataCnt
      let ulOffset := headerOffset m s.pucDataCnt
      let ulDataSizeInBytes := headerSize m s.pucDataCnt
      let pucDataCnt := add32 s.pucDataCnt 11
      note (.chunk uiBus uiUnit uiCs ulOffset ulDataSizeInBytes)
      if add32 pucDataCnt ulDataSizeInBytes > pucDataEnd then
        return .inr (-1)
      else
        match ← selectDevice api s uiBus uiUnit uiCs with
        | none => return .inr (-1)
        | some s =>
          let iResult ← flashDataFile api uiBus s.tDeviceDesc ulOffset pucDataCnt ulDataSizeInBytes
          if iResult = 0 then
            return .inl { s with
              pucDataCnt := add32 pucDataCnt ulDataSizeInBytes, iResult := iResult }
          else
            return .inr iResult
  else
    return .inr s.iResult

def hasMagic (m : Memory) (a : Nat) : Prop :=
  m a = 0x53 ∧ m (add32 a 1) = 0x57 ∧ m (add32 a 2) = 0x46 ∧ m (add32 a 3) = 0x50

instance (m : Memory) (a : Nat) : Decidable (hasMagic m a) :=
  inferInstanceAs (Decidable (_ ∧ _))

/-- No byte of a header equals the start value of the last bus, so the device
description is not used before it was filled. -/
def initialState (api : Headers) (pucDataCnt : Nat) : WfpState :=
  ⟨pucDataCnt, 0xffffffff, 0xffffffff, 0xffffffff, .cleared api, 0⟩

/-- `processWfp`, watched for at most `n` rounds of its loop. -/
def processWfp (api : Headers) (m : Memory) (img : WfpImage) (n : Nat) :
    FlashProg (Option Int) := do
  let pucDataCnt := img.pucWfpImage
  let pucDataEnd := add32 img.pucWfpImage img.sizWfpImage
  if add32 pucDataCnt 4 > pucDataEnd then
    return some (-1)
  else if hasMagic m pucDataCnt then
    loop (processChunk api m pucDataEnd) n (initialState api (add32 pucDataCnt 4))
  else
    return some (-1)

end FlashApp.Wfp
