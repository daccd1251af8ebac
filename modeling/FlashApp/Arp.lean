import FlashApp.Interaction
import FlashApp.Loops
import FlashApp.Eth

namespace FlashApp.Arp

open Bytes Eth Interaction

inductive ArpState where
  | unused
  | requesting
  | valid
  deriving DecidableEq

structure CacheEntry where
  tState : ArpState
  iAge : Int
  ulIp : Nat
  tMac : List UInt8
  ulRequestTimeStamp : Nat
  uiRetryCnt : Nat

/-- A packet that waits for the MAC of its destination. A size of 0 says that
the entry is free. -/
structure QueueEntry where
  sizPacket : Nat
  ulIp : Nat
  ptPkt : Nat
  deriving DecidableEq

abbrev Cache := Fin 8 → CacheEntry

abbrev Queue := Fin 8 → QueueEntry

/-- The two tables, together with the options of the stack. -/
structure Layer where
  auiArpCache : Cache
  atPacketQueue : Queue
  tEthernet : Ethernet

/-- What the functions call. The ARP packet in a frame is written by
`putArpPkt`. -/
inductive Call where
  | ethGetEmptyPacket
  | putArpPkt (ptPkt : Nat) (tArpPkt : List UInt8)
  | ethSendPacket (ptPkt sizPacket : Nat) (tMac : List UInt8) (uiTyp : Nat)
  | ethReleasePacket (ptPkt : Nat)
  | systimeGetMs
  | systimeHandleIsElapsed (ulStart ulDuration : Nat)
  deriving DecidableEq

def Call.Ret : Call → Type
  | .ethGetEmptyPacket => Option Nat
  | .putArpPkt _ _ => Unit
  | .ethSendPacket _ _ _ _ => Unit
  | .ethReleasePacket _ => Unit
  | .systimeGetMs => Nat
  | .systimeHandleIsElapsed _ _ => Bool

abbrev ArpProg := Prog Call Call.Ret

abbrev ArpEvent := Event Call Call.Ret

def ethGetEmptyPacket : ArpProg (Option Nat) := perform Call.ethGetEmptyPacket

def putArpPkt (ptPkt : Nat) (tArpPkt : List UInt8) : ArpProg Unit := perform (Call.putArpPkt ptPkt tArpPkt)

def ethSendPacket (ptPkt sizPacket : Nat) (tMac : List UInt8) (uiTyp : Nat) : ArpProg Unit :=
  perform (Call.ethSendPacket ptPkt sizPacket tMac uiTyp)

def ethReleasePacket (ptPkt : Nat) : ArpProg Unit := perform (Call.ethReleasePacket ptPkt)

def systimeGetMs : ArpProg Nat := perform Call.systimeGetMs

def systimeHandleIsElapsed (ulStart ulDuration : Nat) : ArpProg Bool :=
  perform (Call.systimeHandleIsElapsed ulStart ulDuration)

def arpCacheMaxAge : Int := 0xff

def eth2headerTypIp : Nat := mus2nus 0x0800
def eth2headerTypArp : Nat := mus2nus 0x0806

def arpOpcodeRequest : Nat := mus2nus 1
def arpOpcodeReply : Nat := mus2nus 2

def gtBroadcastMac : List UInt8 := [0xff, 0xff, 0xff, 0xff, 0xff, 0xff]

def aucArpFixedHdr : List UInt8 := [0x00, 0x01, 0x08, 0x00, 0x06, 0x04]

def sizeofArpPacket : Nat := 28

/-- Offsets in a frame with an `ARP_PACKET_T`. -/
def tSrcMac : Nat := 6
def tArpPkt : Nat := 14
def usOpcode : Nat := 20
def tSrcMacAdr : Nat := 22
def ulSrcIpAdr : Nat := 28
def tDstMacAdr : Nat := 32
def ulDstIpAdr : Nat := 38

/-- The loop of `arp_get_cache_entry`. The entries before the hit get older. -/
def getCacheEntryLoop (ulIp : Nat) : List (Fin 8) → Cache → Cache × Option (Fin 8)
  | [], c => (c, none)
  | i :: is, c =>
    if (c i).tState ≠ .unused then
      if (c i).ulIp = ulIp then
        (Function.update c i { c i with iAge := 0 }, some i)
      else if (c i).iAge < arpCacheMaxAge then
        getCacheEntryLoop ulIp is (Function.update c i { c i with iAge := (c i).iAge + 1 })
      else getCacheEntryLoop ulIp is c
    else getCacheEntryLoop ulIp is c

def arpGetCacheEntry (c : Cache) (ulIp : Nat) : Cache × Option (Fin 8) :=
  getCacheEntryLoop ulIp (List.finRange 8) c

def arpGetWaitingPacket (q : Queue) (ulIp : Nat) : Option (Fin 8) :=
  Slots.find fun i => (q i).sizPacket ≠ 0 ∧ (q i).ulIp = ulIp

def clear (q : Queue) (i : Fin 8) : Queue := Function.update q i { q i with sizPacket := 0 }

/-- Do something with each packet that waits for an address. Every round clears
an entry, so there are no more rounds than entries. -/
def drain (ulIp : Nat) (f : QueueEntry → ArpProg Unit) : Nat → Queue → ArpProg Queue
  | 0, q => pure q
  | n + 1, q =>
    match arpGetWaitingPacket q ulIp with
    | none => pure q
    | some i => do
      f (q i)
      drain ulIp f n (clear q i)

def arpProcessWaitingEntries (q : Queue) (ulNewIp : Nat) (tMac : List UInt8) : ArpProg Queue :=
  drain ulNewIp (fun e => ethSendPacket e.ptPkt e.sizPacket tMac eth2headerTypIp) 8 q

def arpAddWaitingPacket (q : Queue) (ptPkt sizPacket ulDstIp : Nat) : Queue × Option (Fin 8) :=
  match Slots.find fun i => (q i).sizPacket = 0 with
  | some i => (Function.update q i ⟨sizPacket, ulDstIp, ptPkt⟩, some i)
  | none => (q, none)

/-- The loop of `arp_set_mac_request`, which looks for a free entry, or else for
the oldest one with a MAC. -/
def freeEntryLoop (c : Cache) : List (Fin 8) → Int → Fin 8 → Fin 8
  | [], _, ptFree => ptFree
  | i :: is, iTopAge, ptFree =>
    match (c i).tState with
    | .valid =>
      if (c i).iAge > iTopAge then freeEntryLoop c is (c i).iAge i else freeEntryLoop c is iTopAge ptFree
    | .unused => i
    | .requesting => freeEntryLoop c is iTopAge ptFree

def freeEntry (c : Cache) : Fin 8 := freeEntryLoop c (List.finRange 8) (-1) 0

def arpSetMacRequest (c : Cache) (tEthernet : Ethernet) (ulIp : Nat) : ArpProg Cache := do
  let i := freeEntry c
  let ulMs ← systimeGetMs
  return Function.update c i { c i with
    tState := .requesting
    iAge := 0
    ulIp := ulIp
    ulRequestTimeStamp := ulMs
    uiRetryCnt := tEthernet.ucArpRetries }

def sendArpPacket (usOpcode : Nat) (o : Ethernet) (tDstMac : List UInt8) (ulDstIp : Nat) (tMac : List UInt8) :
    ArpProg Unit := do
  match ← ethGetEmptyPacket with
  | some ptSendPacket =>
    putArpPkt ptSendPacket
      (aucArpFixedHdr ++ toLe16 usOpcode ++ o.aucMac ++ toLe32 o.ulIp ++ tDstMac ++ toLe32 ulDstIp)
    ethSendPacket ptSendPacket sizeofArpPacket tMac eth2headerTypArp
  | none => return

def arpSendRequest (o : Ethernet) (ulIp : Nat) : ArpProg Unit :=
  sendArpPacket arpOpcodeRequest o (List.replicate 6 0) ulIp gtBroadcastMac

def arpInit (s : Layer) : Layer :=
  { s with
    atPacketQueue := fun i => { s.atPacketQueue i with sizPacket := 0 }
    auiArpCache := fun i => { s.auiArpCache i with tState := .unused } }

/-- The first five bytes of the MAC, all in one. -/
def uiMacOr (aucMac : List UInt8) : Nat := (aucMac.take 5).foldl (fun n b => n ||| b.toNat) 0

def arpProcessRequest (o : Ethernet) (ptEthPkt : Frame) : ArpProg Unit :=
  if get32 ptEthPkt ulDstIpAdr = o.ulIp ∧ uiMacOr (slice ptEthPkt tDstMacAdr 6) = 0 then
    sendArpPacket arpOpcodeReply o (slice ptEthPkt tSrcMacAdr 6) (get32 ptEthPkt ulSrcIpAdr)
      (slice ptEthPkt tSrcMac 6)
  else pure ()

def arpProcessReply (s : Layer) (ptEthPkt : Frame) : ArpProg Layer :=
  if get32 ptEthPkt ulDstIpAdr = s.tEthernet.ulIp ∧ slice ptEthPkt tDstMacAdr 6 = s.tEthernet.aucMac then
    let ulSrcIp := get32 ptEthPkt ulSrcIpAdr
    let r := arpGetCacheEntry s.auiArpCache ulSrcIp
    match r.2 with
    | none => pure { s with auiArpCache := r.1 }
    | some i =>
      if (r.1 i).tState = .requesting then do
        let tMac := slice ptEthPkt tSrcMacAdr 6
        let c := Function.update r.1 i { r.1 i with tState := .valid, iAge := 0, tMac := tMac }
        let q ← arpProcessWaitingEntries s.atPacketQueue ulSrcIp tMac
        return { s with auiArpCache := c, atPacketQueue := q }
      else pure { s with auiArpCache := r.1 }
  else pure s

def arpProcessPacket (s : Layer) (ptEthPkt : Frame) (sizPacket : Nat) : ArpProg Layer :=
  if sizPacket ≥ sizeofEth2Header + sizeofArpPacket ∧ slice ptEthPkt tArpPkt 6 = aucArpFixedHdr then
    let uiOpcode := get16 ptEthPkt usOpcode
    if uiOpcode = arpOpcodeRequest then do
      arpProcessRequest s.tEthernet ptEthPkt
      return s
    else if uiOpcode = arpOpcodeReply then
      arpProcessReply s ptEthPkt
    else pure s
  else pure s

def multicastMac (ulDstIp : Nat) : List UInt8 :=
  [0x01, 0x00, 0x5e, UInt8.ofNat ((ulDstIp >>> 16) &&& 0xff), UInt8.ofNat ((ulDstIp >>> 8) &&& 0xff),
    UInt8.ofNat (ulDstIp &&& 0xff)]

/-- The MAC of an address that needs no ARP request. -/
def groupMac (ulDstIp : Nat) : Option (List UInt8) :=
  if ulDstIp = ipAdr 255 255 255 255 then some gtBroadcastMac
  else if ulDstIp &&& ipAdr 0xf0 0x00 0x00 0x00 = ipAdr 0xe0 0x00 0x00 0x00 then some (multicastMac ulDstIp)
  else none

def arpSendIpv4Packet (s : Layer) (ptPkt sizPacket ulDstIp : Nat) : ArpProg Layer :=
  match groupMac ulDstIp with
  | some tMac => do
    ethSendPacket ptPkt sizPacket tMac eth2headerTypIp
    return s
  | none =>
    let r := arpGetCacheEntry s.auiArpCache ulDstIp
    match r.2 with
    | none =>
      let q := arpAddWaitingPacket s.atPacketQueue ptPkt sizPacket ulDstIp
      match q.2 with
      | some _ => do
        let c ← arpSetMacRequest r.1 s.tEthernet ulDstIp
        arpSendRequest s.tEthernet ulDstIp
        return { s with auiArpCache := c, atPacketQueue := q.1 }
      | none => pure { s with auiArpCache := r.1 }
    | some i =>
      if (r.1 i).tState = .requesting then
        let q := arpAddWaitingPacket s.atPacketQueue ptPkt sizPacket ulDstIp
        pure { s with auiArpCache := r.1, atPacketQueue := q.1 }
      else do
        ethSendPacket ptPkt sizPacket (r.1 i).tMac eth2headerTypIp
        return { s with auiArpCache := r.1 }

def timerEntry (s : Layer) (i : Fin 8) : ArpProg Layer :=
  let e := s.auiArpCache i
  if e.tState = .requesting then do
    if ← systimeHandleIsElapsed e.ulRequestTimeStamp s.tEthernet.usArpTimeout then
      if e.uiRetryCnt > 0 then
        arpSendRequest s.tEthernet e.ulIp
        let ulMs ← systimeGetMs
        return { s with
          auiArpCache := Function.update s.auiArpCache i
            { e with ulRequestTimeStamp := ulMs, uiRetryCnt := e.uiRetryCnt - 1 } }
      else
        let c := Function.update s.auiArpCache i { e with tState := .unused }
        let q ← drain e.ulIp (fun w => ethReleasePacket w.ptPkt) 8 s.atPacketQueue
        return { s with auiArpCache := c, atPacketQueue := q }
    else return s
  else pure s

def timerLoop : List (Fin 8) → Layer → ArpProg Layer
  | [], s => pure s
  | i :: is, s => do
    let s ← timerEntry s i
    timerLoop is s

def arpTimer (s : Layer) : ArpProg Layer := timerLoop (List.finRange 8) s

end FlashApp.Arp
