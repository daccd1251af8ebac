import FlashApp.UdpClient
import FlashApp.Machine

namespace FlashApp.Dns

open Bytes Eth Interaction Udp UdpClient

inductive DnsState where
  | idle
  | request
  | ok
  | notFound
  | error
  deriving DecidableEq

/-- A string in memory: the characters before the terminating zero, and what
comes after it. -/
structure CString where
  chars : List UInt8
  behind : Memory

def CString.bytes (s : CString) : Memory := fun i => ((s.chars ++ [0])[i]?).getD (s.behind i)

/-- The statics of the client, together with the port list and the options
that it shares with the rest of the stack. -/
structure Client where
  tState : DnsState
  usDnsTransactionIdCnt : Nat
  ptAssoc : AssocPtr
  ulLastGoodPacket : Nat
  uiRetryCnt : Nat
  pcHostName : Option CString
  ulHostIp : Nat
  atUdpPortAssoc : Table Handler
  tEthernet : Ethernet

def dnsSrcPort : Nat := 32768
def dnsDstPort : Nat := 53

def mskDnsOptionResponse : Nat := 0x8000
def mskDnsOptionOpcode : Nat := 0x7800
def mskDnsOptionTruncated : Nat := 0x0200
def dnsOptionRecursionDesired : Nat := 0x0100
def mskDnsOptionReplyCode : Nat := 0x000f

def dnsReplycodeOk : Nat := 0
def dnsQueryTypeA : Nat := 0x01
def dnsQueryClassIn : Nat := 0x01

def sizeofDnsPacket : Nat := 12
def sizeofDnsAnswer : Nat := 10

/-- Offsets in a `DNS_PACKET_T`. -/
def usTransactionId : Nat := 0
def usFlags : Nat := 2
def usQuestions : Nat := 4
def usAnswerRRs : Nat := 6
def usAuthorityRRs : Nat := 8
def usAdditionalRRs : Nat := 10

/-- Offsets in a `DNS_ANSWER_T`. -/
def usType : Nat := 0
def usClass : Nat := 2
def usAddressLength : Nat := 8

/-- The rest of the name, behind the characters of the chunk whose length is
not yet set. -/
def convertHostnameToDns : List UInt8 → List UInt8 → List UInt8
  | [], aucChunk => UInt8.ofNat aucChunk.length :: aucChunk ++ [0]
  | ucByte :: pcName, aucChunk =>
    if ucByte = 0x2e then UInt8.ofNat aucChunk.length :: aucChunk ++ convertHostnameToDns pcName []
    else convertHostnameToDns pcName (aucChunk ++ [ucByte])

/-- The loop of `skip_query`. -/
def skipChunks (m : Memory) (pucQueryEnd : Nat) : Nat → Nat → Option Nat
  | 0, _ => none
  | n + 1, pucQuery =>
    let ucLength := m pucQuery
    let pucQuery := add32 (add32 pucQuery 1) ucLength.toNat
    if pucQuery < pucQueryEnd ∧ ucLength ≠ 0 then skipChunks m pucQueryEnd n pucQuery
    else some pucQuery

/-- The inner `none` is a null pointer, the outer one says that the function
has not returned after `n` rounds. -/
def skipQuery (n : Nat) (m : Memory) (pucQuery pucQueryEnd : Nat) : Option (Option Nat) :=
  (skipChunks m pucQueryEnd n pucQuery).map fun pucQuery =>
    let pucQuery := add32 pucQuery 4
    if pucQuery ≥ pucQueryEnd then none else some pucQuery

/-- A pointer, unless it is outside the packet. -/
def insidePacket (pucQueryEnd pucQuery : Nat) : Option Nat :=
  if pucQuery = 0 ∨ pucQuery ≥ pucQueryEnd then none else some pucQuery

/-- The position behind an entry and the name as it is in the buffer. There
is no test that the name fits. A pointer in the packet can lead back to
itself, in which case the recursion has no end. -/
def unpackEntryRecursive (m : Memory) (pucPacketStart pucQueryEnd : Nat) :
    Nat → Nat → List UInt8 → Option (Option Nat × List UInt8)
  | 0, _, _ => none
  | n + 1, pucQuery, aucBuffer =>
    let ucLength := m pucQuery
    let pucQuery := add32 pucQuery 1
    if ucLength = 0 then some (insidePacket pucQueryEnd pucQuery, aucBuffer)
    else if ucLength < 0x40 then
      let aucBuffer := aucBuffer ++ slice m pucQuery ucLength.toNat ++ [0x2e]
      let pucQuery := add32 pucQuery ucLength.toNat
      if pucQuery ≠ 0 ∧ pucQuery < pucQueryEnd then
        unpackEntryRecursive m pucPacketStart pucQueryEnd n pucQuery aucBuffer
      else some (insidePacket pucQueryEnd pucQuery, aucBuffer)
    else if ucLength < 0xc0 then some (none, aucBuffer)
    else
      let pucPtrEntry := add32 pucPacketStart (m pucQuery).toNat
      let pucQuery := add32 pucQuery 1
      (unpackEntryRecursive m pucPacketStart pucQueryEnd n pucPtrEntry aucBuffer).map fun q =>
        match q.1 with
        | none => (none, q.2)
        | some _ => (insidePacket pucQueryEnd pucQuery, q.2)

def parseAnswer (n : Nat) (pcHostName : CString) (m : Memory)
    (pucPacketStart pucQueryEnd pucQuery ulResultIp : Nat) : Option (Option Nat × Nat) :=
  (unpackEntryRecursive m pucPacketStart pucQueryEnd n pucQuery []).map fun q =>
    match q.1 with
    | none => (none, ulResultIp)
    | some pucQuery =>
      let sizName := q.2.length
      if sizName = 0 then (none, ulResultIp)
      else if q.2.take (sizName - 1) ++ [0] = slice pcHostName.bytes 0 sizName then
        let uiLength := mus2nus (get16 m (pucQuery + usAddressLength))
        let pucAddress := pucQuery + sizeofDnsAnswer
        let ulResultIp :=
          if get16 m (pucQuery + usType) = mus2nus dnsQueryTypeA ∧
              get16 m (pucQuery + usClass) = mus2nus dnsQueryClassIn ∧ uiLength = 4 then
            ipAdr (m pucAddress).toNat (m (pucAddress + 1)).toNat (m (pucAddress + 2)).toNat
              (m (pucAddress + 3)).toNat
          else ulResultIp
        (some (add32 pucQuery (sizeofDnsAnswer + uiLength)), ulResultIp)
      else (some pucQuery, ulResultIp)

/-- The loop over the answers until one fits. -/
def parseAnswers (pcHostName : CString) (m : Memory) (pucPacketStart pucQueryEnd : Nat) :
    Nat → Nat → Option Nat
  | 0, _ => none
  | n + 1, pucQuery =>
    match parseAnswer n pcHostName m pucPacketStart pucQueryEnd pucQuery 0 with
    | none => none
    | some (some pucQuery, 0) => parseAnswers pcHostName m pucPacketStart pucQueryEnd n pucQuery
    | some (_, ulHostIp) => some ulHostIp

def Client.hostName (s : Client) : CString := s.pcHostName.getD ⟨[], fun _ => 0⟩

def dnsSendQueryPacket (s : Client) : ClientProg Int :=
  sendPacket s.atUdpPortAssoc s.ptAssoc
    (toLe16 (mus2nus s.usDnsTransactionIdCnt) ++ toLe16 (mus2nus dnsOptionRecursionDesired) ++
      toLe16 (mus2nus 1) ++ toLe16 0 ++ toLe16 0 ++ toLe16 0 ++
      convertHostnameToDns s.hostName.chars [] ++
      [UInt8.ofNat (dnsQueryTypeA >>> 8), UInt8.ofNat dnsQueryTypeA,
        UInt8.ofNat (dnsQueryClassIn >>> 8), UInt8.ofNat dnsQueryClassIn])

/-- The last branch of `dns_recHandler`, for a packet with answers. -/
def dnsProcessAnswers (n : Nat) (s : Client) (m : Memory) (ptDnsPacket sizDnsLength : Nat) :
    Option Client :=
  let pucQueryEnd := add32 ptDnsPacket sizDnsLength
  match skipQuery n m (ptDnsPacket + sizeofDnsPacket) pucQueryEnd with
  | none => none
  | some none => some s
  | some (some pucQuery) =>
    (parseAnswers s.hostName m ptDnsPacket pucQueryEnd n pucQuery).map fun ulHostIp =>
      { s with ulHostIp, tState := if ulHostIp = 0 then .notFound else .ok }

/-- What a packet does while the client waits for an answer. -/
def dnsProcessPacket (n : Nat) (s : Client) (m : Memory) (ptDnsPacket sizDnsLength : Nat) :
    Option Client :=
  let uiFlags := mus2nus (get16 m (ptDnsPacket + usFlags))
  if get16 m (ptDnsPacket + usTransactionId) ≠ mus2nus s.usDnsTransactionIdCnt then some s
  else if uiFlags &&& mskDnsOptionResponse = 0 then some s
  else if uiFlags &&& mskDnsOptionOpcode ≠ 0 then some s
  else if uiFlags &&& mskDnsOptionTruncated ≠ 0 then some s
  else if uiFlags &&& mskDnsOptionReplyCode ≠ dnsReplycodeOk then some { s with tState := .error }
  else if get16 m (ptDnsPacket + usQuestions) ≠ mus2nus 1 then some { s with tState := .notFound }
  else if get16 m (ptDnsPacket + usAnswerRRs) ||| get16 m (ptDnsPacket + usAuthorityRRs) |||
      get16 m (ptDnsPacket + usAdditionalRRs) = 0 then some { s with tState := .notFound }
  else dnsProcessAnswers n s m ptDnsPacket sizDnsLength

/-- The state after a packet, `none` as long as the handler has not returned
after `n` rounds of its loops. -/
def dnsRecHandler (n : Nat) (s : Client) (m : Memory) (pvData sizDnsLength : Nat) : Option Client :=
  if sizDnsLength < sizeofDnsPacket then some s
  else
    match s.tState with
    | .idle | .ok | .error | .notFound => some s
    | .request => dnsProcessPacket n s m (pvData + uUdpData) sizDnsLength

def dnsCleanup (s : Client) : Client :=
  let q := cleanup s.atUdpPortAssoc s.ptAssoc
  { s with atUdpPortAssoc := q.1, ptAssoc := q.2 }

def dnsClose (s : Client) (tState : DnsState) : Client := { dnsCleanup s with tState }

def dnsInit (s : Client) (ulRandom : Nat) : Client :=
  { s with
    tState := .idle
    usDnsTransactionIdCnt := ulRandom % 2 ^ 16
    ptAssoc := none
    ulLastGoodPacket := 0
    uiRetryCnt := 0
    pcHostName := none
    ulHostIp := 0 }

/-- The association that `dns_request` registers. -/
def dnsAssoc (o : Ethernet) : Assoc Handler :=
  ⟨mus2nus dnsSrcPort, o.ulDnsIp, mus2nus dnsDstPort, .dnsRecHandler, 0⟩

def dnsRequest (s : Client) (pcName : CString) : ClientProg (Int × Client) := do
  let q := udpRegisterPort s.atUdpPortAssoc (dnsAssoc s.tEthernet)
  let s := { s with pcHostName := some pcName, atUdpPortAssoc := q.1, ptAssoc := q.2 }
  match s.ptAssoc with
  | none => return (-1, s)
  | some _ =>
    let s := { s with usDnsTransactionIdCnt := (s.usDnsTransactionIdCnt + 1) % 2 ^ 16 }
    let iResult ← dnsSendQueryPacket s
    if iResult = 0 then
      let ulMs ← systimeGetMs
      return (iResult, { s with
        tState := .request, ulLastGoodPacket := ulMs, uiRetryCnt := s.tEthernet.ucDnsRetries })
    else
      return (iResult, dnsClose s .error)

def dnsTimer (s : Client) : ClientProg Client := do
  match s.tState with
  | .idle | .ok | .error | .notFound => return s
  | .request =>
    if ← systimeHandleIsElapsed s.ulLastGoodPacket s.tEthernet.usDnsTimeout then
      if 0 < s.uiRetryCnt then
        let _ ← dnsSendQueryPacket s
        let ulMs ← systimeGetMs
        return { s with ulLastGoodPacket := ulMs, uiRetryCnt := s.uiRetryCnt - 1 }
      else
        return dnsClose s .error
    else
      return s

end FlashApp.Dns
