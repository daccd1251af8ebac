import FlashApp.Bytes
import FlashApp.Interaction
import FlashApp.Lwip

namespace FlashApp.SendMessage

open Bytes Interaction Lwip

/-- What can happen to the connection while the network is polled: lwIP calls
the connect callback or the sent callback, or it frees the pcb. There is no
error callback for the last one. -/
inductive StackEvent where
  | connected (tErr : ErrT)
  | acked (usLen : Nat)
  | freed
  deriving DecidableEq

inductive TcpCall where
  | tcpNew
  | tcpArg
  | tcpSent
  | tcpConnect
  | timerStart (ulMs : Nat)
  | timerIsElapsed
  | networkCyclicProcess
  | tcpSndbuf
  | tcpWrite (pucCnt usChunk ucFlags : Nat)
  | tcpOutput
  | tcpClose
  | tcpAbort
  deriving DecidableEq

/-- `tcp_close` also tells if lwIP keeps the pcb until its data is acknowledged. -/
abbrev TcpAnswer : TcpCall → Type
  | .tcpNew | .timerIsElapsed => Bool
  | .networkCyclicProcess => List StackEvent
  | .tcpConnect | .tcpWrite _ _ _ | .tcpOutput => ErrT
  | .tcpSndbuf => UInt16
  | .tcpClose => ErrT × Bool
  | .tcpArg | .tcpSent | .timerStart _ | .tcpAbort => Unit

abbrev TcpProg := Prog TcpCall TcpAnswer

abbrev TcpEvent := Event TcpCall TcpAnswer

abbrev call (c : TcpCall) : TcpProg (TcpAnswer c) := perform c

structure Message where
  pvMessage : Nat
  sizMessage : Nat
  fits : pvMessage + sizMessage < 2 ^ 32

/-- The data that the callbacks share with `sendMessage`. -/
structure CallbackData where
  uiIsConnected : Nat
  ulSentData : Nat
  tResult : ErrT
  ulChunkTransmitTimeoutInMs : Nat

def sendMessageConnectCallback (c : CallbackData) (tErr : ErrT) : CallbackData :=
  if tErr = .ok then { c with uiIsConnected := 1 } else c

def sendMessageSentCallback (c : CallbackData) (usLen : Nat) : TcpProg CallbackData := do
  call (.timerStart c.ulChunkTransmitTimeoutInMs)
  return { c with ulSentData := add32 c.ulSentData usLen }

def handleEvents (c : CallbackData) : List StackEvent → TcpProg CallbackData
  | [] => return c
  | .connected tErr :: es => handleEvents (sendMessageConnectCallback c tErr) es
  | .acked usLen :: es => do
    let c ← sendMessageSentCallback c usLen
    handleEvents c es
  | .freed :: es => handleEvents c es

def poll (c : CallbackData) : TcpProg CallbackData := do
  let es ← call .networkCyclicProcess
  handleEvents c es

def waitConnected (c : CallbackData) : TcpProg (CallbackData ⊕ (ErrT × CallbackData)) := do
  if c.tResult = .ok ∧ c.uiIsConnected = 0 then
    let c ← poll c
    let fElapsed ← call .timerIsElapsed
    if fElapsed then return .inr (.timeout, c) else return .inl c
  else
    return .inr (.ok, c)

def tcpWriteFlagMore : Nat := 2

def nextChunk (usChunk sizLeft : Nat) : Nat × Nat :=
  if usChunk ≥ sizLeft then (sizLeft % 2 ^ 16, 0) else (usChunk, tcpWriteFlagMore)

def writeChunk (pucCnt : Nat) (chunk : Nat × Nat) : TcpProg (ErrT × Nat) := do
  let tResult ← call (.tcpWrite pucCnt chunk.1 chunk.2)
  if tResult = .ok then return (.ok, add32 pucCnt chunk.1) else return (tResult, pucCnt)

/-- Queue as much of the rest of the message as the stack takes. -/
def queueChunk (pucCnt pucEnd : Nat) : TcpProg (ErrT × Nat) := do
  let usChunk ← call .tcpSndbuf
  if usChunk > 0 then
    writeChunk pucCnt (nextChunk usChunk.toNat (sub32 pucEnd pucCnt))
  else
    return (.ok, pucCnt)

def queueMessage (pucEnd : Nat) (s : Nat × CallbackData) :
    TcpProg ((Nat × CallbackData) ⊕ (ErrT × CallbackData)) := do
  if s.1 < pucEnd then
    let (tResult, pucCnt) ← queueChunk s.1 pucEnd
    if tResult = .ok then
      let fElapsed ← call .timerIsElapsed
      if fElapsed then
        return .inr (.timeout, s.2)
      else
        let c ← poll s.2
        return .inl (pucCnt, c)
    else
      return .inr (tResult, s.2)
  else
    return .inr (.ok, s.2)

def pushMessage (sizMessage : Nat) (c : CallbackData) : TcpProg (CallbackData ⊕ ErrT) := do
  if c.ulSentData < sizMessage then
    let fElapsed ← call .timerIsElapsed
    if fElapsed then
      return .inr .timeout
    else
      let c ← poll c
      return .inl c
  else
    return .inr .ok

def transmit (msg : Message) (c : CallbackData) (n : Nat) : TcpProg (Option ErrT) := do
  call (.timerStart 10000)
  let pucEnd := add32 msg.pvMessage msg.sizMessage
  match ← loop (queueMessage pucEnd) n
    (msg.pvMessage, { c with ulChunkTransmitTimeoutInMs := 10000 }) with
  | none => return none
  | some (tResult, c) =>
    if tResult = .ok then
      let tResult ← call .tcpOutput
      if tResult = .ok then loop (pushMessage msg.sizMessage) n c else return some tResult
    else
      return some tResult

def exchange (msg : Message) (n : Nat) : TcpProg (Option ErrT) := do
  call (.timerStart 5000)
  match ← loop waitConnected n ⟨0, 0, .ok, 0⟩ with
  | none => return none
  | some (tResult, c) =>
    if tResult = .ok ∧ c.tResult = .ok then transmit msg c n else return some tResult

def closePcb (tResult : ErrT) : TcpProg Int := do
  let (tCloseResult, _) ← call .tcpClose
  if tCloseResult ≠ .ok then
    call .tcpAbort
    return -1
  else if tResult = .ok then
    return 0
  else
    return -1

/-- `sendMessage`, watched for at most `n` rounds of each of its loops. -/
def sendMessage (msg : Message) (n : Nat) : TcpProg (Option Int) := do
  let ptPcb ← call .tcpNew
  if ptPcb then
    call .tcpArg
    call .tcpSent
    let tResult ← call .tcpConnect
    if tResult = .ok then
      match ← exchange msg n with
      | none => return none
      | some tResult =>
        let iResult ← closePcb tResult
        return some iResult
    else
      return some (-1)
  else
    return some (-1)

end FlashApp.SendMessage
