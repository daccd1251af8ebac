import FlashApp.Fdl

namespace FlashApp.InfoFile

open Fdl

def isNewline (c : UInt8) : Bool := c == 0x0d || c == 0x0a

def lineSize : List UInt8 → Nat
  | [] => 0
  | c :: cs => if isNewline c then 0 else lineSize cs + 1

def skipNewlines : List UInt8 → List UInt8
  | [] => []
  | c :: cs => if isNewline c then skipNewlines cs else c :: cs

def digitValue (cDigit : UInt8) : Option Nat :=
  if 0x30 ≤ cDigit ∧ cDigit ≤ 0x39 then some (cDigit.toNat - 0x30)
  else if 0x61 ≤ cDigit ∧ cDigit ≤ 0x66 then some (cDigit.toNat - 0x61 + 10)
  else if 0x41 ≤ cDigit ∧ cDigit ≤ 0x46 then some (cDigit.toNat - 0x41 + 10)
  else none

/-- The loop over the digits of the hash: `n` digits are left, `uiLineSize` are
done, and `pucHash` is the position in the hash. -/
def parseDigits (pcCnt : List UInt8) : Nat → Nat → Nat → List UInt8 → Nat × List UInt8
  | 0, uiLineSize, _, tHash => (uiLineSize, tHash)
  | n + 1, uiLineSize, pucHash, tHash =>
    let uiInc := uiLineSize &&& 1
    let uiShift := (uiInc ^^^ 1) <<< 2
    match digitValue (pcCnt.getD uiLineSize 0) with
    | none => (uiLineSize, tHash)
    | some value =>
      let ucData := UInt8.ofNat (value <<< uiShift)
      parseDigits pcCnt n (uiLineSize + 1) (pucHash + uiInc)
        (tHash.set pucHash (tHash.getD pucHash 0 ||| ucData))

/-- The URI after the name was written to its start, with a slash in front and
a terminating zero behind it. -/
def writeUri (acDataUri name : List UInt8) : List UInt8 :=
  0x2f :: name ++ 0x00 :: acDataUri.drop (name.length + 2)

def parseInfoFile (pcBuffer : List UInt8) (info : DeviceInfo) : Int × DeviceInfo :=
  let uiLineSize := lineSize pcBuffer
  if uiLineSize < pcBuffer.length then
    if uiLineSize < 1024 - 1 then
      let pcCnt := skipNewlines (pcBuffer.drop uiLineSize)
      let info := { info with
        acDataUri := writeUri info.acDataUri (pcBuffer.take uiLineSize)
        tHash := List.replicate 48 0 }
      if 96 < pcCnt.length then
        let (uiLineSize, tHash) := parseDigits pcCnt 96 0 0 info.tHash
        let info := { info with tHash := tHash }
        if uiLineSize = 96 then (0, info) else (-1, info)
      else
        (-1, info)
    else
      (-1, info)
  else
    (-1, info)

end FlashApp.InfoFile
