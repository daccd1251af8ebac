import FlashApp.HttpDownload
import FlashApp.InfoFile
import FlashApp.Wfp

namespace FlashApp.Main

open Bytes Interaction Sha384 Lwip HttpDownload Flasher Wfp Fdl InfoFile

/-- The callbacks that the HTTP client makes in a poll. Received data is in the
memory of the pbufs by then. -/
inductive HttpEvent where
  | data (contents : Memory) (p : Option PbufChain) (err : ErrT)
  | result (httpcResult : HttpcResult) (rxContentLen srvRes : Nat) (err : ErrT)

inductive MessageId where
  | downloadStart
  | downloadEnd
  | flashStart
  | flashEnd
  deriving DecidableEq

/-- The messages to the server, with the fields that are printed. -/
inductive Message where
  | start (pcId : MessageId) (ulManufacturer ulDeviceNr ulHwRev ulSerial : Nat)
  | stop (pcId : MessageId) (ulManufacturer ulDeviceNr ulHwRev ulSerial : Nat) (fOk : Bool)
      (ulDuration : Nat) (pcMessage : String)
  | result (ulManufacturer ulDeviceNr ulHwRev ulSerial : Nat) (acDataUri : List UInt8) (fOk : Bool)
      (ulDurationDownload ulDurationFlash : Nat) (pcMessage : String)

inductive BlinkCode where
  | romAckFailed
  | fdlReadFailed
  | downloadDeviceinfoFailed
  | downloadSwfpFailed
  | flashingOk
  | flashingFailed
  deriving DecidableEq

/-- The URI of the info file, from the device number and the hardware revision,
and the one of the data file. -/
inductive Uri where
  | info (ulDeviceNumberHi ulDeviceNumberLo ulHardwareRevision : Nat)
  | data (acDataUri : List UInt8)

/-- Results of functions of the application, as the trace notes them. -/
inductive MainNote where
  | readFDL (iResult : Int)
  | finalized (tHash : List UInt8)
  | httpDownload (tHttpcResult : HttpcResult) (ulServerResponse : Nat) (tResult : ErrT)
  | parseInfoFile (iResult : Int) (tHash : List UInt8)
  | processWfp (mem : Memory) (sizWfpImage : Nat)

inductive MainCall where
  | ackLastRomcodePacket
  | flash (c : Call)
  | setupHardware (ulDeviceNr : Nat)
  | setupNetwork
  | systimeGetMs
  | httpcGetFile (uri : Uri)
  | networkCyclicProcess
  | sendMessage (m : Message)
  | rdyRunBlinki (code : BlinkCode)
  | note (n : MainNote)

abbrev MainAnswer : MainCall → Type
  | .ackLastRomcodePacket | .setupNetwork | .sendMessage _ => Int
  | .flash c => Answer c
  | .systimeGetMs => Nat
  | .httpcGetFile _ => ErrT
  | .networkCyclicProcess => List HttpEvent
  | .setupHardware _ | .rdyRunBlinki _ | .note _ => Unit

abbrev MainProg := Prog MainCall MainAnswer

abbrev MainEvent := Event MainCall MainAnswer

abbrev call (c : MainCall) : MainProg (MainAnswer c) := perform c

abbrev note (n : MainNote) : MainProg Unit := perform (C := MainCall) (R := MainAnswer) (.note n)

abbrev flash {α : Type} (p : FlashProg α) : MainProg α := embed MainCall.flash p

/-- What the application runs on: the flasher headers, the SHA and CRC units
and the place of the buffer for the info file on the stack. -/
structure Platform where
  api : Headers
  sha : ShaUnit
  crc : List UInt8 → Nat
  pucInfoBuffer : Nat
  info_pos : 0 < pucInfoBuffer
  info_fits : pucInfoBuffer + 2048 < 2 ^ 32

/-- The memory with the contents of the pbufs of a received chain. -/
def received (mem contents : Memory) (p : PbufChain) : Memory :=
  fun a => if p.elements.any fun b => b.payload ≤ a ∧ a < b.payload + b.len then contents a else mem a

def handleEvent (sha : ShaUnit) (d : Download) : HttpEvent → MainProg (Option Download)
  | .data _ none err => return (httpDownloadDataCallback d none err).map Prod.snd
  | .data contents (some p) err =>
    return (httpDownloadDataCallback { d with mem := received d.mem contents p } (some p) err).map
      Prod.snd
  | .result httpcResult rxContentLen srvRes err => do
    let d := httpDownloadResultCallback sha d httpcResult rxContentLen srvRes err
    if httpcResult = .ok ∧ srvRes = 200 ∧ err = .ok then
      note (.finalized d.http.tHash)
    return some d

def handleEvents (sha : ShaUnit) : List HttpEvent → Download → MainProg (Option Download)
  | [], d => return some d
  | e :: es, d => do
    match ← handleEvent sha d e with
    | none => return none
    | some d => handleEvents sha es d

def pollDownload (sha : ShaUnit) (d : Download) : MainProg (Download ⊕ Option Download) := do
  if d.http.fIsFinished = 0 then
    let es ← call .networkCyclicProcess
    match ← handleEvents sha es d with
    | none => return .inr none
    | some d => return .inl d
  else
    return .inr (some d)

def initialDownload (mem : Memory) (pucBuffer sizBuffer : Nat) : Download where
  http := ⟨pucBuffer, pucBuffer, add32 pucBuffer sizBuffer, List.replicate 48 0, 0, .ok, 0, .ok⟩
  mem := mem
  din := []
  recved := 0
  freed := 0

/-- `httpDownload`, watched for at most `n` polls. It leaves the memory and, if
it is successful, the size and the hash of the downloaded data. -/
def httpDownload (sha : ShaUnit) (mem : Memory) (uri : Uri) (pucBuffer sizBuffer n : Nat) :
    MainProg (Option (Memory × Option (Nat × List UInt8))) := do
  let _ ← call .systimeGetMs
  let tResult ← call (.httpcGetFile uri)
  if tResult = .ok then
    match ← loop (pollDownload sha) n (initialDownload mem pucBuffer sizBuffer) with
    | none | some none => return none
    | some (some d) =>
      let _ ← call .systimeGetMs
      note (.httpDownload d.http.tHttpcResult d.http.ulServerResponse d.http.tResult)
      if d.http.tHttpcResult = .ok ∧ d.http.ulServerResponse = 200 ∧ d.http.tResult = .ok then
        return some (d.mem, some (sub32 d.http.pucCnt d.http.pucStart, d.http.tHash))
      else
        return some (d.mem, none)
  else
    return some (mem, none)

def infoUri (info : DeviceInfo) : Uri :=
  let ulDeviceNumberHi := info.ulDeviceNr / 1000
  .info ulDeviceNumberHi (info.ulDeviceNr - 1000 * ulDeviceNumberHi) info.ulHwRev

def getDeviceInfo (plat : Platform) (mem : Memory) (info : DeviceInfo) (n : Nat) :
    MainProg (Option (Int × DeviceInfo × Memory)) := do
  let mem := store mem plat.pucInfoBuffer (List.replicate 2048 0)
  match ← httpDownload plat.sha mem (infoUri info) plat.pucInfoBuffer 2048 n with
  | none => return none
  | some (mem, none) => return some (-1, info, mem)
  | some (mem, some (uiDownloadSize, _)) =>
    let (iResult, info) := parseInfoFile (slice mem plat.pucInfoBuffer uiDownloadSize) info
    note (.parseInfoFile iResult info.tHash)
    return some (iResult, info, mem)

def getDataFile (plat : Platform) (mem : Memory) (info : DeviceInfo) (n : Nat) :
    MainProg (Option (Int × DeviceInfo × Memory)) := do
  let pucBuffer := 0x40000000
  let sizBuffer := 0x40000000
  match ← httpDownload plat.sha mem (.data info.acDataUri) pucBuffer sizBuffer n with
  | none => return none
  | some (mem, none) => return some (-1, info, mem)
  | some (mem, some (uiDownloadSize, tMyHash)) =>
    if tMyHash = info.tHash then
      return some (0, { info with pucWfpImage := pucBuffer, sizWfpImage := uiDownloadSize }, mem)
    else
      return some (-1, info, mem)

def generateStartMessage (info : DeviceInfo) (pcId : MessageId) : MainProg Unit := do
  let _ ← call (.sendMessage
    (.start pcId info.ulManufacturer info.ulDeviceNr info.ulHwRev info.ulSerial))
  return ()

def generateEndMessage (info : DeviceInfo) (pcId : MessageId) (iResult : Int) (pcMessage : String)
    (ulDuration : Nat) : MainProg Unit := do
  let _ ← call (.sendMessage (.stop pcId info.ulManufacturer info.ulDeviceNr info.ulHwRev
    info.ulSerial (iResult = 0) ulDuration pcMessage))
  return ()

def generateResultMessage (info : DeviceInfo) (iResult : Int) (pcMessage : String)
    (ulDurationDownload ulDurationFlash : Nat) : MainProg Unit := do
  let _ ← call (.sendMessage (.result info.ulManufacturer info.ulDeviceNr info.ulHwRev
    info.ulSerial info.acDataUri (iResult = 0) ulDurationDownload ulDurationFlash pcMessage))
  return ()

def duration (ulTimeStart : Nat) : MainProg Nat := do
  let ulTime ← call .systimeGetMs
  return sub32 ulTime ulTimeStart

def finish (info : DeviceInfo) (iResult : Int) (pcErrorMessage : String)
    (ulDurationDownload ulDurationFlash : Nat) (code : BlinkCode) : MainProg (Option Unit) := do
  generateResultMessage info iResult pcErrorMessage ulDurationDownload ulDurationFlash
  call (.rdyRunBlinki code)
  return some ()

def reportFlash (info : DeviceInfo) (ulDurationDownload ulTimeStart : Nat) (iResult : Int) :
    MainProg (Option Unit) := do
  let ulDurationFlash ← duration ulTimeStart
  if iResult = 0 then
    generateEndMessage info .flashEnd 0 "OK" ulDurationFlash
    finish info iResult "OK" ulDurationDownload ulDurationFlash .flashingOk
  else
    generateEndMessage info .flashEnd (-1) "Failed to flash the SWFP." ulDurationFlash
    finish info iResult "Failed to flash the SWFP." ulDurationDownload ulDurationFlash
      .flashingFailed

/-- Flash the image that was downloaded, watched for at most `k` chunks. -/
def flashImage (plat : Platform) (mem : Memory) (info : DeviceInfo) (ulDurationDownload k : Nat) :
    MainProg (Option Unit) := do
  generateStartMessage info .flashStart
  let ulTimeStart ← call .systimeGetMs
  note (.processWfp mem info.sizWfpImage)
  match ← flash (processWfp plat.api mem ⟨info.pucWfpImage, info.sizWfpImage⟩ k) with
  | none => return none
  | some iResult => reportFlash info ulDurationDownload ulTimeStart iResult

def downloadFailed (info : DeviceInfo) (iResult : Int) (pcErrorMessage : String) (ulTimeStart : Nat)
    (code : BlinkCode) : MainProg (Option Unit) := do
  let ulDurationDownload ← duration ulTimeStart
  generateEndMessage info .downloadEnd (-1) pcErrorMessage ulDurationDownload
  finish info iResult pcErrorMessage ulDurationDownload 0 code

def processDataFile (plat : Platform) (mem : Memory) (info : DeviceInfo) (ulTimeStart n k : Nat) :
    MainProg (Option Unit) := do
  match ← getDataFile plat mem info n with
  | none => return none
  | some (iResult, info, mem) =>
    if iResult ≠ 0 then
      downloadFailed info iResult "Failed to download the SWFP." ulTimeStart .downloadSwfpFailed
    else
      let ulDurationDownload ← duration ulTimeStart
      generateEndMessage info .downloadEnd 0 "OK" ulDurationDownload
      flashImage plat mem info ulDurationDownload k

def station (plat : Platform) (mem : Memory) (info : DeviceInfo) (n k : Nat) :
    MainProg (Option Unit) := do
  generateStartMessage info .downloadStart
  let ulTimeStart ← call .systimeGetMs
  match ← getDeviceInfo plat mem info n with
  | none => return none
  | some (iResult, info, mem) =>
    if iResult ≠ 0 then
      downloadFailed info iResult "Failed to download the device info." ulTimeStart
        .downloadDeviceinfoFailed
    else
      processDataFile plat mem info ulTimeStart n k

/-- `flashapp_main` up to its endless loops, watched for at most `n` polls in
each download and for at most `k` chunks. -/
def flashappMain (plat : Platform) (mem : Memory) (n k : Nat) : MainProg (Option Unit) := do
  let iResult ← call .ackLastRomcodePacket
  if iResult ≠ 0 then
    call (.rdyRunBlinki .romAckFailed)
    return some ()
  else
    let (iResult, info) ← flash (readFDL plat.api plat.crc .cleared)
    note (.readFDL iResult)
    if iResult ≠ 0 then
      call (.rdyRunBlinki .fdlReadFailed)
      return some ()
    else
      call (.setupHardware info.ulDeviceNr)
      let _ ← call .setupNetwork
      station plat mem info n k

end FlashApp.Main
