import FlashApp.Main
import FlashApp.PbufRead

namespace FlashApp.Httpc

open Bytes Lwip PbufRead Main

def ascii (cs : List Char) : List UInt8 := cs.map fun c => UInt8.ofNat c.toNat

def crlf : List UInt8 := [13, 10]

def blank : List UInt8 := ascii [' ']

def httpName : List UInt8 := ascii ['H', 'T', 'T', 'P', '/']

def contentLengthName : List UInt8 :=
  ascii ['C', 'o', 'n', 't', 'e', 'n', 't', '-', 'L', 'e', 'n', 'g', 't', 'h', ':', ' ']

def contentLenInvalid : Nat := 0xFFFFFFFF

def pollTimeout : Nat := 30

def isspace (c : UInt8) : Bool := c = 32 || 9 ≤ c && c ≤ 13

def isdigit (c : UInt8) : Bool := 48 ≤ c && c ≤ 57

/-- The number that the digits at the front of an array stand for. Without a
character behind them the array is read past its end. -/
def number (s : List UInt8) : Option Nat :=
  if s.dropWhile isdigit = [] then none
  else some ((s.takeWhile isdigit).foldl (fun n c => 10 * n + (c.toNat - 48)) 0)

/-- `atoi` on an array. It is not defined for a number that is no `int`. -/
def atoi (s : List UInt8) : Option Int :=
  match s.dropWhile isspace with
  | 45 :: s => do
    let n ← number s
    if n ≤ 2 ^ 31 then return -(n : Int) else none
  | 43 :: s => do
    let n ← number s
    if n < 2 ^ 31 then return (n : Int) else none
  | s => do
    let n ← number s
    if n < 2 ^ 31 then return (n : Int) else none

/-- The array of `n` zeros after `bs` was copied to its start. -/
def fill (n : Nat) (bs : List UInt8) : List UInt8 := bs ++ List.replicate (n - bs.length) 0

/-- The first line, with the version and the status that are written. There is
no result if the status does not fit into its array. The offset of the text
behind the status is not used. -/
def httpParseResponseStatus (m : Memory) (p : List Pbuf) (httpVersion httpStatus : Nat) :
    Option (ErrT × Nat × Nat) :=
  let end1 := pbufMemfind m p crlf 0
  let space1 := pbufMemfind m p blank 0
  if end1 ≠ 0xFFFF ∧ space1 ≠ 0xFFFF ∧ pbufMemcmp m p 0 httpName = 0 ∧ pbufGetAt m p 6 = 46 then
    let major := ((pbufGetAt m p 5).toNat + 2 ^ 16 - 48) % 2 ^ 16
    let minor := ((pbufGetAt m p 7).toNat + 2 ^ 16 - 48) % 2 ^ 16
    let version := (major <<< 8) % 2 ^ 16 ||| minor
    let space2 := pbufMemfind m p blank (space1 + 1)
    let statusNumLen :=
      if space2 ≠ 0xFFFF then sub32 (sub32 space2 space1) 1 else sub32 (sub32 end1 space1) 1
    let statusNum := pbufCopyPartial m p (statusNumLen % 2 ^ 16) (space1 + 1)
    if 10 < statusNum.length then
      none
    else if statusNum.length = statusNumLen then do
      let status ← atoi (fill 10 statusNum)
      if 0 < status ∧ status ≤ 0xFFFF then
        return (.ok, version, status.toNat)
      else
        return (.val, version, httpStatus)
    else
      some (.val, version, httpStatus)
  else
    some (.val, httpVersion, httpStatus)

/-- The content length that a chain gives. There is no result if the number
does not fit into its array. -/
def contentLength (m : Memory) (p : List Pbuf) : Option Nat :=
  let contentLenHdr := pbufMemfind m p contentLengthName 0
  if contentLenHdr ≠ 0xFFFF then
    let contentLenLineEnd := pbufMemfind m p crlf contentLenHdr
    if contentLenLineEnd ≠ 0xFFFF then
      let contentLenNumLen := (contentLenLineEnd + 2 ^ 16 - contentLenHdr - 16) % 2 ^ 16
      let contentLenNum := pbufCopyPartial m p contentLenNumLen (contentLenHdr + 16)
      if 16 < contentLenNum.length then
        none
      else if contentLenNum.length = contentLenNumLen then do
        let len ← atoi (fill 16 contentLenNum)
        if 0 ≤ len ∧ len < contentLenInvalid then return len.toNat else return contentLenInvalid
      else
        some contentLenInvalid
    else
      some contentLenInvalid
  else
    some contentLenInvalid

/-- The content length and the length of all headers, once they are there. -/
def httpWaitHeaders (m : Memory) (p : List Pbuf) : Option (Option (Nat × Nat)) :=
  let end1 := pbufMemfind m p (crlf ++ crlf) 0
  if end1 < 0xFFFF - 2 then do
    let len ← contentLength m p
    return some (len, (end1 + 4) % 2 ^ 16)
  else
    some none

inductive ParseState where
  | waitFirstLine
  | waitHeaders
  | rxData
  deriving DecidableEq

/-- A request. `rxHdrs` is the null pointer if there is no element in it. -/
structure HttpcState where
  pcb : Bool
  timeoutTicks : Nat
  request : Option (List UInt8)
  rxHdrs : List Pbuf
  rxHttpVersion : Nat
  rxStatus : Nat
  rxContentLen : Nat
  hdrContentLen : Nat
  parseState : ParseState

/-- The functions that are set for a request. -/
structure Callbacks where
  resultFn : Bool
  headersDoneFn : Bool
  recvFn : Bool

/-- What the functions return that a request calls. -/
structure Answers where
  recvFn : ErrT
  headersDoneFn : ErrT
  altcpWrite : ErrT
  altcpClose : ErrT

/-- What a request does: the callbacks it makes and its calls of lwIP. -/
inductive Act where
  | callback (e : HttpEvent)
  | headersDone (hdr : List Pbuf) (hdrLen contentLen : Nat)
  | recved (len : Nat)
  | write (data : List UInt8)
  | output
  | free (bs : List Pbuf)
  | freeRequest
  | close
  | abort

/-- The end of a call: what it returns, the request if it is still there, and
what was done. -/
structure Done where
  ret : ErrT
  req : Option HttpcState
  acts : List Act

/-- The callbacks of the connection are removed with the request. -/
def httpcFreeState (a : Answers) (req : HttpcState) : ErrT × List Act :=
  let frees := (if req.request.isSome then [.freeRequest] else []) ++
    (if req.rxHdrs ≠ [] then [.free req.rxHdrs] else [])
  if req.pcb then
    if a.altcpClose = .ok then (.ok, frees ++ [.close]) else (.abrt, frees ++ [.close, .abort])
  else
    (.ok, frees)

def httpcClose (cb : Callbacks) (a : Answers) (req : HttpcState) (result : HttpcResult)
    (serverResponse : Nat) (err : ErrT) : Done :=
  let results :=
    if cb.resultFn then [.callback (.result result req.rxContentLen serverResponse err)] else []
  let (ret, frees) := httpcFreeState a req
  { ret := ret, req := none, acts := results ++ frees }

/-- The result of a request when the server closes the connection. -/
def closedResult (req : HttpcState) : HttpcResult :=
  if req.parseState ≠ .rxData then
    .errClosed
  else if req.hdrContentLen ≠ contentLenInvalid ∧ req.hdrContentLen ≠ req.rxContentLen then
    .errContentLen
  else
    .ok

def receiveData (cb : Callbacks) (a : Answers) (m : Memory) (req : HttpcState) (p : PbufChain) (r : ErrT) :
    Done :=
  let req := { req with timeoutTicks := pollTimeout, rxContentLen := add32 req.rxContentLen p.totLen }
  if cb.recvFn then
    { ret := a.recvFn, req := some req, acts := [.callback (.data m (some p) r)] }
  else
    { ret := .ok, req := some req, acts := [.recved p.totLen, .free p.elements] }

def receiveFirstLine (m : Memory) (req : HttpcState) : Option HttpcState := do
  if req.parseState = .waitFirstLine then
    let (err, version, status) ← httpParseResponseStatus m req.rxHdrs req.rxHttpVersion req.rxStatus
    let req := { req with rxHttpVersion := version, rxStatus := status }
    if err = .ok then return { req with parseState := .waitHeaders } else return req
  else
    return req

/-- All headers are in the chain. They are hidden, and what is behind them is
the first data. -/
def receiveHeaders (cb : Callbacks) (a : Answers) (m : Memory) (req : HttpcState) (totalHeaderLen : Nat)
    (r : ErrT) : Done :=
  let calls := if cb.headersDoneFn then [.headersDone req.rxHdrs totalHeaderLen req.hdrContentLen] else []
  if cb.headersDoneFn = true ∧ a.headersDoneFn ≠ .ok then
    let closed := httpcClose cb a req .localAbort req.rxStatus a.headersDoneFn
    { closed with acts := .recved totalHeaderLen :: calls ++ closed.acts }
  else
    let (q, freed) := pbufFreeHeader req.rxHdrs totalHeaderLen
    let req := { req with rxHdrs := [], parseState := .rxData }
    let acts := .recved totalHeaderLen :: calls ++ [.free freed]
    match q with
    | [] => { ret := .ok, req := some req, acts := acts }
    | b :: bs =>
      let received := receiveData cb a m req ⟨b, bs⟩ r
      { received with acts := acts ++ received.acts }

def httpcTcpRecv (cb : Callbacks) (a : Answers) (m : Memory) (req : HttpcState) (p : Option PbufChain)
    (r : ErrT) : Option Done :=
  match p with
  | none => some (httpcClose cb a req (closedResult req) req.rxStatus .ok)
  | some p =>
    if req.parseState = .rxData then
      some (receiveData cb a m req p r)
    else do
      let req ← receiveFirstLine m { req with rxHdrs := req.rxHdrs ++ p.elements }
      if req.parseState = .waitHeaders then
        match ← httpWaitHeaders m req.rxHdrs with
        | none => return { ret := .ok, req := some req, acts := [] }
        | some (len, totalHeaderLen) =>
          return receiveHeaders cb a m { req with hdrContentLen := len } totalHeaderLen r
      else
        return { ret := .ok, req := some req, acts := [] }

/-- The connection is gone already. -/
def httpcTcpErr (cb : Callbacks) (a : Answers) (req : HttpcState) (err : ErrT) : Done :=
  httpcClose cb a { req with pcb := false } .errClosed 0 err

def httpcTcpPoll (cb : Callbacks) (a : Answers) (req : HttpcState) : Done :=
  let req := { req with timeoutTicks := req.timeoutTicks - 1 }
  if req.timeoutTicks = 0 then
    httpcClose cb a req .errTimeout 0 .ok
  else
    { ret := .ok, req := some req, acts := [] }

/-- The request is sent without the zero at its end. -/
def httpcTcpConnected (cb : Callbacks) (a : Answers) (req : HttpcState) : Option Done := do
  let request ← req.request
  let call := .write request.dropLast
  if a.altcpWrite = .ok then
    return { ret := .ok, req := some { req with request := none }, acts := [call, .freeRequest, .output] }
  else
    let closed := httpcClose cb a req .errMem 0 a.altcpWrite
    return { closed with acts := call :: closed.acts }

/-- The calls that lwIP makes for the connection of a request. -/
inductive TcpEvent where
  | connected
  | recv (contents : Memory) (p : Option PbufChain) (r : ErrT)
  | sent (len : Nat)
  | poll
  | err (err : ErrT)

def handle (cb : Callbacks) (a : Answers) (req : HttpcState) : TcpEvent → Option Done
  | .connected => httpcTcpConnected cb a req
  | .recv contents p r => httpcTcpRecv cb a contents req p r
  | .sent _ => some { ret := .ok, req := some req, acts := [] }
  | .poll => some (httpcTcpPoll cb a req)
  | .err err => some (httpcTcpErr cb a req err)

/-- A request as `httpc_init_connection_common` sets it up. -/
def initialRequest (request : List UInt8) : HttpcState where
  pcb := true
  timeoutTicks := pollTimeout
  request := some request
  rxHdrs := []
  rxHttpVersion := 0
  rxStatus := 0
  rxContentLen := 0
  hdrContentLen := contentLenInvalid
  parseState := .waitFirstLine

end FlashApp.Httpc
