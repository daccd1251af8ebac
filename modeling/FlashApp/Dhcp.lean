import FlashApp.UdpClient
import FlashApp.Machine

namespace FlashApp.Dhcp

open Bytes Eth Interaction Udp UdpClient

inductive DhcpState where
  | idle
  | discover
  | request
  | error
  | ok
  deriving DecidableEq

/-- The statics of the client, together with the port list and the options
that it shares with the rest of the stack. -/
structure Client where
  tState : DhcpState
  ptAssoc : AssocPtr
  ulLastGoodPacket : Nat
  uiRetryCnt : Nat
  ulXId : Nat
  ulRequestIp : Nat
  aucServerIdentifier : List UInt8
  acTftpServerName : List UInt8
  acTftpBootfileName : List UInt8
  atUdpPortAssoc : Table Handler
  tEthernet : Ethernet

def dhcpOpBootrequest : UInt8 := 1
def dhcpOpBootreply : UInt8 := 2

def dhcpDiscoverSrcPort : Nat := 68
def dhcpDiscoverDstPort : Nat := 67
def dhcpDiscoverDstIp : Nat := ipAdr 255 255 255 255

def dhcpMsgtypDiscover : UInt8 := 1
def dhcpMsgtypOffer : UInt8 := 2
def dhcpMsgtypRequest : UInt8 := 3
def dhcpMsgtypAck : UInt8 := 5
def dhcpMsgtypNak : UInt8 := 6

def dhcpOptSubnetMask : UInt8 := 1
def dhcpOptRouter : UInt8 := 3
def dhcpOptDomainNameServer : UInt8 := 6
def dhcpOptDhcpMessageType : UInt8 := 53
def dhcpOptServerIdentifier : UInt8 := 54
def dhcpOptParameterRequestList : UInt8 := 55
def dhcpOptTftpServerName : UInt8 := 66
def dhcpOptBootfileName : UInt8 := 67
def dhcpOptEnd : UInt8 := 255

def aucDhcpMagic : List UInt8 := [0x63, 0x82, 0x53, 0x63]

def aucDhcpOptionDiscover : List UInt8 := [dhcpOptDhcpMessageType, 1, dhcpMsgtypDiscover]

def aucDhcpOptionRequest : List UInt8 := [dhcpOptDhcpMessageType, 1, dhcpMsgtypRequest]

def aucDhcpOptionParamReqList : List UInt8 :=
  [dhcpOptParameterRequestList, 5, dhcpOptSubnetMask, dhcpOptRouter, dhcpOptDomainNameServer,
    dhcpOptTftpServerName, dhcpOptBootfileName]

def sizeofDhcpPacket : Nat := 236

/-- Offsets in a `DHCP_PACKET_T`. -/
def ucOp : Nat := 0
def ucHType : Nat := 1
def ucHLen : Nat := 2
def ulXIdOffset : Nat := 4
def ulYiAddr : Nat := 16
def aucChAddr : Nat := 28
def acSName : Nat := 44
def acFile : Nat := 108

/-- The fixed part of both packets. -/
def dhcpPacket (s : Client) : List UInt8 :=
  [dhcpOpBootrequest, 1, 6, 0] ++ toLe32 s.ulXId ++ toLe16 0 ++ toLe16 0 ++
    toLe32 0 ++ toLe32 0 ++ toLe32 0 ++ toLe32 0 ++
    s.tEthernet.aucMac ++ List.replicate 10 0 ++ List.replicate 64 0 ++ List.replicate 128 0

def fillUp (aucOpts : List UInt8) : List UInt8 := aucOpts ++ List.replicate (342 - aucOpts.length) 0

def dhcpSendDiscoverPacket (s : Client) : ClientProg Int :=
  sendPacket s.atUdpPortAssoc s.ptAssoc (dhcpPacket s ++
    fillUp (aucDhcpMagic ++ aucDhcpOptionDiscover ++ aucDhcpOptionParamReqList ++ [dhcpOptEnd]))

def dhcpSendRequestPacket (s : Client) : ClientProg Int :=
  sendPacket s.atUdpPortAssoc s.ptAssoc (dhcpPacket s ++
    fillUp (aucDhcpMagic ++ aucDhcpOptionRequest ++
      [dhcpOptServerIdentifier, 4] ++ s.aucServerIdentifier ++
      [50, 4] ++ toLe32 s.ulRequestIp ++ aucDhcpOptionParamReqList ++ [dhcpOptEnd]))

def dhcpCleanup (s : Client) : Client :=
  let q := cleanup s.atUdpPortAssoc s.ptAssoc
  { s with atUdpPortAssoc := q.1, ptAssoc := q.2 }

/-- The loop over the options; `none` says that it is still running. -/
def dhcpOptionLoop (m : Memory) (uiOption : UInt8) (pucEnd : Nat) : Nat → Nat → Option (Option Nat)
  | 0, _ => none
  | n + 1, pucCnt =>
    if add32 pucCnt 2 ≤ pucEnd then
      let sizOption := (m (add32 pucCnt 1)).toNat
      if m pucCnt = uiOption ∧ add32 pucCnt (2 + sizOption) ≤ pucEnd then some (some pucCnt)
      else dhcpOptionLoop m uiOption pucEnd n (add32 pucCnt (2 + sizOption))
    else some none

/-- The address of an option, if it is there. The pointer is the only state of
the loop, so it never ends if it goes on after as many rounds as addresses. -/
def dhcpGetOption (m : Memory) (ptPacket sizPacket : Nat) (uiOption : UInt8) : Option (Option Nat) :=
  let pucCnt := add32 ptPacket sizeofDhcpPacket
  let pucEnd := add32 pucCnt sizPacket
  if add32 pucCnt 4 ≤ pucEnd then
    if slice m pucCnt 4 = aucDhcpMagic then dhcpOptionLoop m uiOption pucEnd (2 ^ 32) (add32 pucCnt 4)
    else some none
  else some none

/-- The tests on the fixed part of a received packet. -/
def isBootreply (s : Client) (m : Memory) (ptDhcpPacket : Nat) : Bool :=
  m (ptDhcpPacket + ucOp) = dhcpOpBootreply ∧
    m (ptDhcpPacket + ucHType) = 1 ∧
    m (ptDhcpPacket + ucHLen) = 6 ∧
    get32 m (ptDhcpPacket + ulXIdOffset) = s.ulXId ∧
    slice m (ptDhcpPacket + aucChAddr) 6 = s.tEthernet.aucMac ∧
    get32 m (ptDhcpPacket + ulYiAddr) ≠ 0

def optByte (m : Memory) (pucOpt i : Nat) : UInt8 := m (add32 pucOpt i)

def optIp (m : Memory) (pucOpt : Nat) : Nat :=
  ipAdr (optByte m pucOpt 2).toNat (optByte m pucOpt 3).toNat (optByte m pucOpt 4).toNat
    (optByte m pucOpt 5).toNat

/-- A name in an option replaces the one in the fixed part if it fits. -/
def overrideName (m : Memory) (sizName : Nat) (acName : List UInt8) : Option Nat → List UInt8
  | none => acName
  | some pucOpt =>
    let sizOption := (optByte m pucOpt 1).toNat
    if 0 < sizOption ∧ sizOption < sizName then
      slice m (add32 pucOpt 2) sizOption ++ [0] ++ acName.drop (sizOption + 1)
    else acName

/-- The settings of an acknowledge packet, once the netmask and the gateway
are there. -/
def dhcpAccept (s : Client) (m : Memory) (ulNewIp ulNewNetmask ulNewGatewayIp : Nat)
    (ptDns ptServerName ptBootfileName : Option Nat) : Client :=
  let o := { s.tEthernet with ulIp := ulNewIp, ulNetmask := ulNewNetmask, ulGatewayIp := ulNewGatewayIp }
  let o := match ptDns with
    | some pucOpt => if 4 ≤ (optByte m pucOpt 1).toNat then { o with ulDnsIp := optIp m pucOpt } else o
    | none => o
  let acTftpServerName := overrideName m 64 s.acTftpServerName ptServerName
  let acTftpBootfileName := overrideName m 128 s.acTftpBootfileName ptBootfileName
  let o := if acTftpServerName.headD 0 ≠ 0 ∧ acTftpBootfileName.headD 0 ≠ 0 then
      { o with acTftpServerName, acTftpBootfileName, ulTftpIp := 0 }
    else o
  { s with acTftpServerName, acTftpBootfileName, tEthernet := o }

def dhcpClose (s : Client) (tState : DhcpState) : Client := { dhcpCleanup s with tState }

/-- The branch for an acknowledge packet. -/
def dhcpProcessAck (s : Client) (m : Memory) (ptDhcpPacket sizDhcpLength : Nat) : Option Client := do
  let ulNewIp := get32 m (ptDhcpPacket + ulYiAddr)
  let s := { s with
    acTftpServerName := slice m (ptDhcpPacket + acSName) 63 ++ [0]
    acTftpBootfileName := slice m (ptDhcpPacket + acFile) 127 ++ [0] }
  let ptNetmask ← dhcpGetOption m ptDhcpPacket sizDhcpLength dhcpOptSubnetMask
  match ptNetmask with
  | none => return dhcpClose s .error
  | some pucNetmask =>
    if optByte m pucNetmask 1 = 4 then
      let ptRouter ← dhcpGetOption m ptDhcpPacket sizDhcpLength dhcpOptRouter
      match ptRouter with
      | none => return dhcpClose s .error
      | some pucRouter =>
        if optByte m pucRouter 1 = 4 then
          let ptDns ← dhcpGetOption m ptDhcpPacket sizDhcpLength dhcpOptDomainNameServer
          let ptServerName ← dhcpGetOption m ptDhcpPacket sizDhcpLength dhcpOptTftpServerName
          let ptBootfileName ← dhcpGetOption m ptDhcpPacket sizDhcpLength dhcpOptBootfileName
          let s := dhcpAccept s m ulNewIp (optIp m pucNetmask) (optIp m pucRouter)
            ptDns ptServerName ptBootfileName
          return dhcpClose s .ok
        else return dhcpClose s .error
    else return dhcpClose s .error

/-- What a packet does while the client waits for the answer to its request. -/
def dhcpProcessReply (s : Client) (m : Memory) (ptDhcpPacket sizDhcpLength : Nat) : Option Client := do
  if isBootreply s m ptDhcpPacket then
    let s := { s with acTftpServerName := List.replicate 64 0, acTftpBootfileName := List.replicate 128 0 }
    let ptMessageType ← dhcpGetOption m ptDhcpPacket sizDhcpLength dhcpOptDhcpMessageType
    match ptMessageType with
    | none => return s
    | some pucOpt =>
      if optByte m pucOpt 1 = 1 then
        if optByte m pucOpt 2 = dhcpMsgtypAck then dhcpProcessAck s m ptDhcpPacket sizDhcpLength
        else if optByte m pucOpt 2 = dhcpMsgtypNak then return dhcpClose s .error
        else return s
      else return s
  else return s

/-- The server identifier of an offer, or zeros. -/
def offerServer (m : Memory) : Option Nat → List UInt8
  | some pucOpt => if optByte m pucOpt 1 = 4 then slice m (add32 pucOpt 2) 4 else List.replicate 4 0
  | none => List.replicate 4 0

def isOffer (s : Client) (m : Memory) (ptDhcpPacket sizDhcpLength : Nat) : Option Bool :=
  if isBootreply s m ptDhcpPacket then
    (dhcpGetOption m ptDhcpPacket sizDhcpLength dhcpOptDhcpMessageType).map fun
      | some pucOpt => optByte m pucOpt 1 = 1 ∧ optByte m pucOpt 2 = dhcpMsgtypOffer
      | none => false
  else some false

/-- `none` says that the handler does not return. -/
def dhcpRecHandler (s : Client) (m : Memory) (pvData sizDhcpLength : Nat) :
    ClientProg (Option Client) := do
  let ptDhcpPacket := pvData + uUdpData
  match s.tState with
  | .idle | .error | .ok => return some s
  | .discover =>
    match isOffer s m ptDhcpPacket sizDhcpLength with
    | none => return none
    | some false => return some s
    | some true =>
      match dhcpGetOption m ptDhcpPacket sizDhcpLength dhcpOptServerIdentifier with
      | none => return none
      | some ptServer =>
        let s := { s with
          aucServerIdentifier := offerServer m ptServer
          ulRequestIp := get32 m (ptDhcpPacket + ulYiAddr) }
        let iResult ← dhcpSendRequestPacket s
        if iResult = 0 then
          let ulMs ← systimeGetMs
          return some { s with
            tState := .request, ulLastGoodPacket := ulMs, uiRetryCnt := s.tEthernet.ucDhcpRetries }
        else
          return some (dhcpCleanup s)
  | .request => return dhcpProcessReply s m ptDhcpPacket sizDhcpLength

def dhcpInit (s : Client) : Client :=
  { s with
    tState := .idle
    ptAssoc := none
    ulXId := get32 (fun i => s.tEthernet.aucMac.getD i 0) 0 }

def dhcpRequest (s : Client) : ClientProg Client := do
  let q := udpRegisterPort s.atUdpPortAssoc
    ⟨mus2nus dhcpDiscoverSrcPort, dhcpDiscoverDstIp, mus2nus dhcpDiscoverDstPort, .dhcpRecHandler, 0⟩
  let s := { s with atUdpPortAssoc := q.1, ptAssoc := q.2 }
  match s.ptAssoc with
  | none => return s
  | some _ =>
    let s := { s with ulXId := add32 s.ulXId 1 }
    let iResult ← dhcpSendDiscoverPacket s
    if iResult = 0 then
      let ulMs ← systimeGetMs
      return { s with
        tState := .discover, ulLastGoodPacket := ulMs, uiRetryCnt := s.tEthernet.ucDhcpRetries }
    else
      return dhcpClose s .error

/-- What `dhcp_timer` does in both of its open states, where it sends the last
packet again. -/
def dhcpTimeout (s : Client) (resend : ClientProg Int) : ClientProg Client := do
  if ← systimeHandleIsElapsed s.ulLastGoodPacket s.tEthernet.usDhcpTimeout then
    if 0 < s.uiRetryCnt then
      let _ ← resend
      let ulMs ← systimeGetMs
      return { s with ulLastGoodPacket := ulMs, uiRetryCnt := s.uiRetryCnt - 1 }
    else
      return dhcpClose s .error
  else
    return s

def dhcpTimer (s : Client) : ClientProg Client :=
  match s.tState with
  | .idle | .error | .ok => pure s
  | .discover => dhcpTimeout s (dhcpSendDiscoverPacket s)
  | .request => dhcpTimeout s (dhcpSendRequestPacket s)

end FlashApp.Dhcp
