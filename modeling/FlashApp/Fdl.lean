import FlashApp.Flasher

namespace FlashApp.Fdl

open Bytes Interaction Flasher

structure DeviceInfo where
  ulManufacturer : Nat
  ulDeviceNr : Nat
  ulHwRev : Nat
  ulSerial : Nat
  acDataUri : List UInt8
  tHash : List UInt8
  pucWfpImage : Nat
  sizWfpImage : Nat

def DeviceInfo.cleared : DeviceInfo :=
  ⟨0, 0, 0, 0, List.replicate 1024 0, List.replicate 48 0, 0, 0⟩

/-- The sizes of the header, the content area and the footer of the FDL. -/
def sizFdlHeader : Nat := 16
def sizFdlData : Nat := 964
def sizFdlFooter : Nat := 16
def sizFdl : Nat := sizFdlHeader + sizFdlData + sizFdlFooter

def half (buf : Memory) (a : Nat) : Nat := (buf a).toNat ||| (buf (a + 1)).toNat <<< 8

def usLabelSize (buf : Memory) : Nat := half buf 12
def usContentSize (buf : Memory) : Nat := half buf 14
def ulChecksum (buf : Memory) : Nat := word buf (sizFdlHeader + sizFdlData)

def startToken : List UInt8 :=
  [0x50, 0x72, 0x6f, 0x64, 0x75, 0x63, 0x74, 0x44, 0x61, 0x74, 0x61, 0x3e]

def endToken : List UInt8 :=
  [0x3c, 0x50, 0x72, 0x6f, 0x64, 0x75, 0x63, 0x74, 0x44, 0x61, 0x74, 0x61]

/-- The checks of the FDL, and the fields taken from it. The checksum is
computed by the CRC unit. -/
def checkFdl (crc : List UInt8 → Nat) (buf : Memory) (info : DeviceInfo) : Int × DeviceInfo :=
  if slice buf 0 12 ≠ startToken then
    (-1, info)
  else if slice buf (sizFdlHeader + sizFdlData + 4) 12 ≠ endToken then
    (-1, info)
  else if usLabelSize buf ≠ usContentSize buf + sizFdlHeader + sizFdlFooter then
    (-1, info)
  else if sizFdl < usLabelSize buf then
    (-1, info)
  else if crc (slice buf sizFdlHeader (usContentSize buf)) ≠ ulChecksum buf then
    (-1, info)
  else
    (0, { info with
      ulManufacturer := half buf 16
      ulDeviceNr := word buf 20
      ulHwRev := (buf 29).toNat
      ulSerial := word buf 24 })

def readFDL (api : Headers) (crc : List UInt8 → Nat) (info : DeviceInfo) :
    FlashProg (Int × DeviceInfo) := do
  let ulOffset := 0xff0000
  let (tResult, tSpiInfo) ← call (.spiDetect (spiConfiguration api 0 0))
  if tResult = .ok then
    let (tResult, buf) ← call (.spiRead tSpiInfo ulOffset (ulOffset + sizFdl))
    if tResult = .ok then return checkFdl crc buf info else return (-1, info)
  else
    return (-1, info)

end FlashApp.Fdl
