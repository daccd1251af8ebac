import FlashApp.Bytes
import FlashApp.Trace
import FlashApp.Interaction

namespace FlashApp.Flasher

open Interaction

inductive ConsoleappResult where
  | ok
  | error (code : Int)
  deriving DecidableEq

/-- The constants of the flasher headers. The enumerators of `BUS_T` label the
cases of one switch, so they differ. -/
structure Headers where
  busParFlash : Nat
  busSpi : Nat
  busIFlash : Nat
  busSdio : Nat
  distinct : [busParFlash, busSpi, busIFlash, busSdio].Nodup
  sizInfo : Nat
  sizDeviceDescription : Nat
  flasherInterfaceVersion : Nat
  mskSqiCfgIdle : Nat

def Headers.Supported (api : Headers) (bus : Nat) : Prop := bus = api.busSpi ∨ bus = api.busSdio

instance (api : Headers) (bus : Nat) : Decidable (api.Supported bus) :=
  inferInstanceAs (Decidable (_ ∨ _))

structure SpiConfiguration where
  uiUnit : Nat
  uiChipSelect : Nat
  ulInitialSpeedKhz : Nat
  ulMaximumSpeedKhz : Nat
  uiIdleCfg : Nat
  uiMode : Nat
  aucMmio : List UInt8
  deriving DecidableEq

/-- The configuration that every user of the SPI flash passes to `spi_detect`. -/
def spiConfiguration (api : Headers) (uiUnit uiCs : Nat) : SpiConfiguration where
  uiUnit := uiUnit
  uiChipSelect := uiCs
  ulInitialSpeedKhz := 1000
  ulMaximumSpeedKhz := 25000
  uiIdleCfg := api.mskSqiCfgIdle
  uiMode := 3
  aucMmio := [0xff, 0xff, 0xff, 0xff]

/-- The union `uInfo` holds the SPI info or the SDIO handle as its bytes. -/
structure DeviceDescription where
  fIsValid : Nat
  sizThis : Nat
  ulVersion : Nat
  tSourceTyp : Nat
  uInfo : List UInt8
  deriving DecidableEq

def DeviceDescription.cleared (api : Headers) : DeviceDescription :=
  ⟨0, 0, 0, 0, List.replicate api.sizInfo 0⟩

def DeviceDescription.detected (api : Headers) (tBus : Nat) (uInfo : List UInt8) :
    DeviceDescription :=
  ⟨1, api.sizDeviceDescription, api.flasherInterfaceVersion, tBus, uInfo⟩

/-- Points of the flashing code that are no library calls. -/
inductive Note where
  | loopHead (pucDataCnt : Nat)
  | chunk (uiBus uiUnit uiCs ulOffset ulDataSizeInBytes : Nat)
  | clearDevice (uiBus uiUnit uiCs : Nat)
  | flashDataFile (tBus : Nat) (tDeviceDesc : DeviceDescription)
      (ulOffsetInBytes pucData ulDataSizeInBytes : Nat)
  deriving DecidableEq

/-- The calls of the flasher library, and the notes among them. -/
inductive Call where
  | spiDetect (tSpiConfig : SpiConfiguration)
  | sdioDetectWrap
  | spiRead (tSpiInfo : List UInt8) (ulStartAdr ulEndAdr : Nat)
  | spiGetEraseArea (tSpiInfo : List UInt8) (ulStartAdr ulEndAdr : Nat)
  | spiIsErased (tSpiInfo : List UInt8) (ulStartAdr ulEndAdr : Nat)
  | spiErase (tSpiInfo : List UInt8) (ulStartAdr ulEndAdr : Nat)
  | spiFlash (tSpiInfo : List UInt8) (ulOffset ulDataSize pucData : Nat)
  | sdioWrite (tDeviceDesc : DeviceDescription) (ulStartAdr ulDataByteSize pucData : Nat)
  | note (n : Note)
  deriving DecidableEq

/-- A call returns its result code and leaves any value in its output
parameters, whether it succeeds or not. -/
abbrev Answer : Call → Type
  | .spiDetect _ | .sdioDetectWrap => ConsoleappResult × List UInt8
  | .spiRead _ _ _ => ConsoleappResult × Bytes.Memory
  | .spiGetEraseArea _ _ _ => ConsoleappResult × Nat × Nat
  | .spiIsErased _ _ _ => ConsoleappResult × Nat
  | .spiErase _ _ _ | .spiFlash _ _ _ _ | .sdioWrite _ _ _ _ => ConsoleappResult
  | .note _ => Unit

abbrev FlashProg := Prog Call Answer

abbrev FlashEvent := Event Call Answer

/-- The result code of a library call; a note has none. -/
def result : FlashEvent → Option ConsoleappResult
  | ⟨.spiDetect _, r⟩ | ⟨.sdioDetectWrap, r⟩ | ⟨.spiRead _ _ _, r⟩
  | ⟨.spiGetEraseArea _ _ _, r⟩ | ⟨.spiIsErased _ _ _, r⟩ => some r.1
  | ⟨.spiErase _ _ _, r⟩ | ⟨.spiFlash _ _ _ _, r⟩ | ⟨.sdioWrite _ _ _ _, r⟩ => some r
  | ⟨.note _, _⟩ => none

def Failed (e : FlashEvent) : Prop := ∃ code, result e = some (.error code)

def Call.EraseOrProgram : Call → Prop
  | .spiErase _ _ _ | .spiFlash _ _ _ _ | .sdioWrite _ _ _ _ => True
  | _ => False

abbrev call (c : Call) : FlashProg (Answer c) := perform c

abbrev note (n : Note) : FlashProg Unit := perform (C := Call) (R := Answer) (.note n)

end FlashApp.Flasher
