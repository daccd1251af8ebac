import FlashApp.HttpcResponse
import FlashApp.DownloadRuns

namespace FlashApp.Httpc

open Bytes Lwip PbufRead Search Main Machine DownloadRuns

/-- The callbacks of a download; it does not look at the headers. -/
def downloadCallbacks : Callbacks where
  resultFn := true
  headersDoneFn := false
  recvFn := true

/-- A request and the memory at its last call. The request is gone when it is
finished. -/
structure Conn where
  req : Option HttpcState
  mem : Memory

structure Call where
  event : TcpEvent
  answers : Answers
  acts : List Act

/-- The memory at a call; data that is received is there by then. -/
def memoryAt (mem : Memory) : TcpEvent → Memory
  | .recv contents _ _ => contents
  | _ => mem

def stream : TcpEvent → List UInt8
  | .recv contents (some p) _ => payload contents p.elements
  | _ => []

/-- What lwIP promises for a call: the memory of the pbufs that a request holds
is not used for anything else, data comes without an error, and there is never
more of it than fits into the window. Bytes that are still held are not
announced as received. -/
def Promised (mem : Memory) (req : HttpcState) : TcpEvent → Prop
  | .recv contents (some p) r =>
    r = .ok ∧ payload contents req.rxHdrs = payload mem req.rxHdrs ∧
      size req.rxHdrs + size p.elements < 2 ^ 16
  | .connected => req.request.isSome = true
  | _ => True

/-- A call that is defined. A run ends where lwIP makes a call that overruns an
array of the client or gets to an undefined `atoi`. -/
structure Step (cb : Callbacks) (c : Conn) (l : Call) (c' : Conn) : Prop where
  running : ∃ req done, c.req = some req ∧ Promised c.mem req l.event ∧
    handle cb l.answers req l.event = some done ∧ c'.req = done.req ∧ l.acts = done.acts
  mem : c'.mem = memoryAt c.mem l.event

def callback? : Act → Option HttpEvent
  | .callback e => some e
  | _ => none

def callbacks (acts : List Act) : List HttpEvent := acts.filterMap callback?

def bodyOf (acts : List Act) : List UInt8 := (callbacks acts).flatMap delivered

def received (h : List Call) : List UInt8 := h.flatMap fun l => stream l.event

def actsOf (h : List Call) : List Act := h.flatMap Call.acts

/-- A request that still waits for headers has all bytes of the response. -/
structure Holding (r : Response) (rx : List UInt8) (mem : Memory) (req : HttpcState) : Prop where
  hdrs : payload mem req.rxHdrs = rx
  line : req.parseState = if rx.length < r.lineEnd + 2 then .waitFirstLine else .waitHeaders
  status : req.rxStatus = if rx.length < r.lineEnd + 2 then 0 else r.status
  content : req.rxContentLen = 0

structure Receiving (r : Response) (rx : List UInt8) (req : HttpcState) : Prop where
  hdrs : req.rxHdrs = []
  line : req.parseState = .rxData
  status : req.rxStatus = r.status
  length : req.hdrContentLen = r.contentLen
  content : req.rxContentLen = (rx.length - r.head.length) % 2 ^ 32

/-- A request that has got the bytes `rx` of a response. -/
def Tracks (r : Response) (rx : List UInt8) (mem : Memory) (req : HttpcState) : Prop :=
  if rx.length < r.head.length then Holding r rx mem req else Receiving r rx req

/-- The result when the connection is closed after the bytes `rx`. -/
def verdict (r : Response) (rx : List UInt8) : HttpcResult :=
  if rx.length < r.head.length then
    .errClosed
  else if r.contentLen ≠ contentLenInvalid ∧ r.contentLen ≠ (rx.length - r.head.length) % 2 ^ 32 then
    .errContentLen
  else
    .ok

/-- What is reported when the call `e` ends a request that has got the bytes `rx`. -/
def outcome (r : Response) (rx : List UInt8) (e : TcpEvent) (a : Answers) : HttpEvent :=
  let count := (rx.length - r.head.length) % 2 ^ 32
  match e with
  | .connected => .result .errMem count 0 a.altcpWrite
  | .poll => .result .errTimeout count 0 .ok
  | .err err => .result .errClosed count 0 err
  | _ => .result (verdict r rx) count (if rx.length < r.lineEnd + 2 then 0 else r.status) .ok

variable {r : Response} {rx : List UInt8} {mem : Memory} {req : HttpcState} {a : Answers}

theorem Tracks.content (h : Tracks r rx mem req) :
    req.rxContentLen = (rx.length - r.head.length) % 2 ^ 32 := by
  rw [Tracks] at h
  split_ifs at h with hlt
  · rw [h.content, Nat.sub_eq_zero_of_le (by omega), Nat.zero_mod]
  · exact h.content

theorem Tracks.status (h : Tracks r rx mem req) :
    req.rxStatus = if rx.length < r.lineEnd + 2 then 0 else r.status := by
  have hline := r.lineEnd_le
  rw [Tracks] at h
  split_ifs at h with hlt
  · exact h.status
  · rw [h.status, if_neg (by omega)]

theorem Tracks.closedResult (h : Tracks r rx mem req) : closedResult req = verdict r rx := by
  rw [Httpc.closedResult, verdict]
  rw [Tracks] at h
  split_ifs at h with hlt
  · rw [if_pos hlt, if_pos]
    rw [h.line]
    split_ifs <;> decide
  · simp only [h.line, ne_eq, not_true_eq_false, ↓reduceIte, hlt, h.length, h.content]

/-- The other fields of a request have nothing to do with the response. -/
theorem Tracks.other (h : Tracks r rx mem req) (pcb : Bool) (ticks : Nat) (request : Option (List UInt8)) :
    Tracks r rx mem { req with pcb := pcb, timeoutTicks := ticks, request := request } := by
  rw [Tracks] at h ⊢
  split_ifs at h ⊢
  · exact ⟨h.hdrs, h.line, h.status, h.content⟩
  · exact ⟨h.hdrs, h.line, h.status, h.length, h.content⟩

theorem receiveFirstLine_eq {p : List Pbuf} {old : List UInt8} (hp : size p < 2 ^ 16)
    (hold : Holding r old mem req) (hrx : payload mem p = rx) (hle : old.length ≤ rx.length)
    (hpre : rx <+: r.bytes) :
    ∃ req', receiveFirstLine mem { req with rxHdrs := p } = some req' ∧ Holding r rx mem req' ∧ req'.rxHdrs = p := by
  have hsize : size p = rx.length := by rw [← hrx, length_payload]
  have hxs : payload mem p <+: r.bytes := hrx ▸ hpre
  by_cases hstate : old.length < r.lineEnd + 2
  · have hfirst : req.parseState = .waitFirstLine := by rw [hold.line, if_pos hstate]
    by_cases hlt : rx.length < r.lineEnd + 2
    · have hparse := parseStatus_early hp hxs (by omega) req.rxHttpVersion req.rxStatus
      refine ⟨{ req with rxHdrs := p }, ?_, ⟨hrx, ?_, ?_, hold.content⟩, rfl⟩
      · simp [receiveFirstLine, hfirst, hparse]
      · simp [hlt, hfirst]
      · simp [hlt, hold.status, hstate]
    · obtain ⟨version, hparse⟩ := parseStatus_line hp hxs (by omega) req.rxHttpVersion req.rxStatus
      refine ⟨{ req with rxHdrs := p, rxHttpVersion := version, rxStatus := r.status, parseState := .waitHeaders },
        ?_, ⟨hrx, ?_, ?_, hold.content⟩, rfl⟩
      · simp [receiveFirstLine, hfirst, hparse]
      · simp [hlt]
      · simp [hlt]
  · have hwait : req.parseState = .waitHeaders := by rw [hold.line, if_neg hstate]
    have hlt : ¬ rx.length < r.lineEnd + 2 := by omega
    refine ⟨{ req with rxHdrs := p }, ?_, ⟨hrx, ?_, ?_, hold.content⟩, rfl⟩
    · simp [receiveFirstLine, hwait]
    · simp [hlt, hwait]
    · simp [hlt, hold.status, hstate]

/-- What a call with data does: the request goes on, and the part of the data
that is not a header is passed on. -/
structure Advances (r : Response) (rx new : List UInt8) (mem : Memory) (done : Done) : Prop where
  tracks : ∃ req, done.req = some req ∧ Tracks r (rx ++ new) mem req
  body : rx.drop r.head.length ++ bodyOf done.acts = (rx ++ new).drop r.head.length
  data : ∀ e ∈ callbacks done.acts, Delivers e

theorem receiveData_advances {p : PbufChain} (hp : size p.elements < 2 ^ 16) (h : Receiving r rx req)
    (hlen : r.head.length ≤ rx.length) :
    Advances r rx (payload mem p.elements) mem (receiveData downloadCallbacks a mem req p .ok) where
  tracks := by
    have hmore : (rx ++ payload mem p.elements).length = rx.length + size p.elements := by
      rw [List.length_append, length_payload]
    refine ⟨_, rfl, ?_⟩
    rw [Tracks, if_neg (by omega)]
    refine ⟨h.hdrs, h.line, h.status, h.length, ?_⟩
    simp only [h.content, hmore, PbufChain.totLen, Nat.mod_eq_of_lt hp, add32]
    omega
  body := by
    rw [List.drop_append_of_le_length hlen]
    simp [receiveData, downloadCallbacks, bodyOf, callbacks, callback?, delivered]
  data e he := by
    obtain rfl := List.mem_singleton.mp he
    exact ⟨_, _, rfl⟩

theorem receiveHeaders_advances {old : List UInt8} (hp : size req.rxHdrs < 2 ^ 16) (h : Holding r rx mem req)
    (hlen : r.head.length ≤ rx.length) (hold : old.length < r.head.length) {new : List UInt8}
    (hrx : rx = old ++ new) :
    Advances r old new mem
      (receiveHeaders downloadCallbacks a mem { req with hdrContentLen := r.contentLen } r.head.length .ok) := by
  have hline := r.lineEnd_le
  have hstatus : req.rxStatus = r.status := by rw [h.status, if_neg (by omega)]
  have hrest : payload mem (pbufFreeHeader req.rxHdrs r.head.length).1 = rx.drop r.head.length := by
    rw [payload_pbufFreeHeader, h.hdrs]
  have hsize : size (pbufFreeHeader req.rxHdrs r.head.length).1 = rx.length - r.head.length := by
    rw [← length_payload mem, hrest, List.length_drop]
  have htotal : size req.rxHdrs = rx.length := by rw [← h.hdrs, length_payload]
  have hnone : old.drop r.head.length = [] := List.drop_eq_nil_of_le hold.le
  simp only [receiveHeaders, downloadCallbacks, Bool.false_eq_true, ↓reduceIte, false_and]
  generalize hq : (pbufFreeHeader req.rxHdrs r.head.length).1 = q at hrest hsize
  cases q with
  | nil =>
    have hzero : rx.length = r.head.length := by
      simp only [size_nil] at hsize
      omega
    refine ⟨⟨_, rfl, ?_⟩, ?_, by simp [callbacks, callback?]⟩
    · rw [← hrx, Tracks, if_neg (by omega)]
      refine ⟨rfl, rfl, hstatus, rfl, ?_⟩
      rw [hzero, Nat.sub_self, Nat.zero_mod]
      exact h.content
    · rw [hnone, ← hrx, ← hrest]
      rfl
  | cons b bs =>
    refine ⟨⟨_, rfl, ?_⟩, ?_, ?_⟩
    · rw [← hrx, Tracks, if_neg (by omega)]
      refine ⟨rfl, rfl, hstatus, rfl, ?_⟩
      simp only [PbufChain.totLen, PbufChain.elements, hsize, h.content, add32]
      omega
    · rw [hnone, ← hrx, ← hrest]
      exact List.append_nil _
    · intro e he
      obtain rfl := List.mem_singleton.mp he
      exact ⟨_, _, rfl⟩

theorem httpcTcpRecv_advances {contents : Memory} {p : PbufChain} (h : Tracks r rx mem req)
    (hpromised : Promised mem req (.recv contents (some p) .ok))
    (hpre : rx ++ payload contents p.elements <+: r.bytes) :
    ∃ done, httpcTcpRecv downloadCallbacks a contents req (some p) .ok = some done ∧
      Advances r rx (payload contents p.elements) contents done := by
  obtain ⟨-, hkept, hwindow⟩ := hpromised
  rw [Tracks] at h
  split_ifs at h with hlt
  · have hchain : payload contents (req.rxHdrs ++ p.elements) = rx ++ payload contents p.elements := by
      rw [payload_append, hkept, h.hdrs]
    have hsize : size (req.rxHdrs ++ p.elements) < 2 ^ 16 := by rw [size_append]; exact hwindow
    have hheld : Holding r rx contents req := ⟨hkept.trans h.hdrs, h.line, h.status, h.content⟩
    obtain ⟨req', hfirst, hreq', hhdrs⟩ := receiveFirstLine_eq hsize hheld hchain (by simp) hpre
    have hnot : req.parseState ≠ .rxData := by
      rw [h.line]
      split_ifs <;> decide
    generalize hnew : payload contents p.elements = new at *
    have hcount : size req'.rxHdrs = (rx ++ new).length := by rw [← hreq'.hdrs, length_payload]
    rw [← hhdrs] at hsize
    have hstart : httpcTcpRecv downloadCallbacks a contents req (some p) .ok =
        if req'.parseState = .waitHeaders then
          (httpWaitHeaders contents req'.rxHdrs).bind fun o =>
            o.elim (some ⟨.ok, some req', []⟩) fun x => some (receiveHeaders downloadCallbacks a contents
              { req' with hdrContentLen := x.1 } x.2 .ok)
        else
          some ⟨.ok, some req', []⟩ := by
      simp only [httpcTcpRecv, hnot, ↓reduceIte, hfirst, Option.bind_eq_bind, Option.bind_some]
      refine ite_congr rfl (fun _ => ?_) fun _ => rfl
      congr 1
      funext o
      cases o with
      | none => rfl
      | some x => rfl
    have hwaits : (rx ++ new).length < r.head.length →
        Advances r rx new contents ⟨.ok, some req', []⟩ := by
      intro hshort
      refine ⟨⟨req', rfl, ?_⟩, ?_, by simp [callbacks]⟩
      · rwa [Tracks, if_pos hshort]
      · rw [List.drop_eq_nil_of_le hlt.le, List.drop_eq_nil_of_le hshort.le]
        rfl
    have hxs : payload contents req'.rxHdrs <+: r.bytes := hreq'.hdrs ▸ hpre
    have hline := r.lineEnd_le
    rw [hstart, hreq'.line]
    by_cases hfl : (rx ++ new).length < r.lineEnd + 2
    · rw [if_pos hfl, if_neg (by decide)]
      exact ⟨_, rfl, hwaits (by omega)⟩
    · rw [if_neg hfl, if_pos rfl]
      by_cases hshort : (rx ++ new).length < r.head.length
      · rw [waitHeaders_early hsize hxs (by omega)]
        exact ⟨_, rfl, hwaits hshort⟩
      · rw [waitHeaders_end hsize hxs (by omega)]
        exact ⟨_, rfl, receiveHeaders_advances hsize hreq' (by omega) hlt rfl⟩
  · have hdata : req.parseState = .rxData := h.line
    refine ⟨receiveData downloadCallbacks a contents req p .ok, ?_, ?_⟩
    · simp [httpcTcpRecv, hdata]
    · exact receiveData_advances (by omega) h (by omega)

def Ends : TcpEvent → Prop
  | .recv _ (some _) _ | .sent _ => False
  | _ => True

/-- What a call does that ends the request: it reports one result. -/
structure Finishes (r : Response) (rx : List UInt8) (e : TcpEvent) (a : Answers) (done : Done) : Prop where
  ends : Ends e
  gone : done.req = none
  reported : callbacks done.acts = [outcome r rx e a]

theorem callbacks_append (xs ys : List Act) : callbacks (xs ++ ys) = callbacks xs ++ callbacks ys :=
  List.filterMap_append

theorem callbacks_httpcFreeState (a : Answers) (req : HttpcState) :
    callbacks (httpcFreeState a req).2 = [] := by
  simp only [httpcFreeState]
  split_ifs <;> rfl

theorem callbacks_httpcClose {cb : Callbacks} (hcb : cb.resultFn = true) (a : Answers) (req : HttpcState)
    (result : HttpcResult) (srv : Nat) (err : ErrT) :
    callbacks (httpcClose cb a req result srv err).acts = [.result result req.rxContentLen srv err] := by
  simp only [httpcClose, hcb, ↓reduceIte]
  rw [callbacks_append, callbacks_httpcFreeState]
  rfl

theorem httpcClose_finishes (req : HttpcState) (pre : List Act) {e : TcpEvent} {result : HttpcResult}
    {srv : Nat} {err : ErrT} (hends : Ends e) (hpre : callbacks pre = [])
    (h : .result result req.rxContentLen srv err = outcome r rx e a) :
    Finishes r rx e a { httpcClose downloadCallbacks a req result srv err with
      acts := pre ++ (httpcClose downloadCallbacks a req result srv err).acts } where
  ends := hends
  gone := rfl
  reported := by rw [callbacks_append, hpre, callbacks_httpcClose rfl, h, List.nil_append]

theorem handle_cases {e : TcpEvent} (h : Tracks r rx mem req) (hpromised : Promised mem req e)
    (hpre : rx ++ stream e <+: r.bytes) (a : Answers) :
    ∃ done, handle downloadCallbacks a req e = some done ∧
      (Advances r rx (stream e) (memoryAt mem e) done ∨ stream e = [] ∧ Finishes r rx e a done) := by
  have hcontent := h.content
  -- a call that leaves what the headers and the data need
  have hquiet : ∀ {req' : HttpcState} {acts : List Act}, stream e = [] → memoryAt mem e = mem →
      Tracks r rx mem req' → callbacks acts = [] →
      Advances r rx (stream e) (memoryAt mem e) ⟨.ok, some req', acts⟩ := by
    intro req' acts hstream hmem htracks hacts
    rw [hstream, hmem]
    refine ⟨⟨req', rfl, ?_⟩, ?_, ?_⟩
    · rwa [List.append_nil]
    · simp only [bodyOf, hacts, List.append_nil, List.flatMap_nil]
    · simp only [hacts, List.not_mem_nil, false_imp_iff, implies_true]
  cases e with
  | connected =>
    obtain ⟨text, htext⟩ := Option.isSome_iff_exists.mp hpromised
    by_cases hwrite : a.altcpWrite = .ok
    · refine ⟨⟨.ok, some { req with request := none }, [.write text.dropLast, .freeRequest, .output]⟩, ?_,
        .inl (hquiet rfl rfl (h.other req.pcb req.timeoutTicks none) rfl)⟩
      simp [handle, httpcTcpConnected, htext, hwrite]
    · refine ⟨_, ?_, .inr ⟨rfl, @httpcClose_finishes _ _ a req [.write text.dropLast] _ .errMem
        0 a.altcpWrite trivial rfl ?_⟩⟩
      · simp [handle, httpcTcpConnected, htext, hwrite]
      · rw [hcontent]
        rfl
  | recv contents p err =>
    cases p with
    | none =>
      refine ⟨_, rfl, .inr ⟨rfl, httpcClose_finishes _ [] trivial rfl ?_⟩⟩
      rw [hcontent, h.closedResult, h.status]
      rfl
    | some p =>
      obtain rfl : err = .ok := hpromised.1
      obtain ⟨done, hdone, hadv⟩ := httpcTcpRecv_advances (a := a) h hpromised hpre
      exact ⟨done, hdone, .inl hadv⟩
  | sent len => exact ⟨_, rfl, .inl (hquiet rfl rfl h rfl)⟩
  | poll =>
    have htick := h.other req.pcb (req.timeoutTicks - 1) req.request
    by_cases hzero : req.timeoutTicks - 1 = 0
    · refine ⟨_, rfl, .inr ⟨rfl, ?_⟩⟩
      simp only [httpcTcpPoll, hzero, ↓reduceIte]
      refine httpcClose_finishes _ [] trivial rfl ?_
      simp only [hcontent]
      rfl
    · refine ⟨_, rfl, .inl ?_⟩
      simp only [httpcTcpPoll, hzero, ↓reduceIte]
      exact hquiet rfl rfl htick rfl
  | err err =>
    refine ⟨_, rfl, .inr ⟨rfl, httpcClose_finishes { req with pcb := false } [] trivial rfl ?_⟩⟩
    simp only [hcontent]
    rfl

/-- A request after the calls `h`, with the bytes of a response so far. -/
structure RunInv (r : Response) (h : List Call) (c : Conn) : Prop where
  body : bodyOf (actsOf h) = (received h).drop r.head.length
  running : ∀ req, c.req = some req →
    Tracks r (received h) c.mem req ∧ ∀ e ∈ callbacks (actsOf h), Delivers e
  finished : c.req = none → ∃ pre l, h = pre ++ [l] ∧ Ends l.event ∧
    (∀ e ∈ callbacks (actsOf pre), Delivers e) ∧
    callbacks (actsOf h) = callbacks (actsOf pre) ++ [outcome r (received h) l.event l.answers]

theorem tracks_initial (r : Response) (text : List UInt8) (mem : Memory) :
    Tracks r [] mem (initialRequest text) := by
  have hfour := r.four_le
  rw [Tracks, if_pos (by simpa using by omega)]
  refine ⟨rfl, ?_, ?_, rfl⟩ <;> simp [initialRequest]

theorem received_snoc (h : List Call) (l : Call) : received (h ++ [l]) = received h ++ stream l.event := by
  simp [received]

theorem actsOf_snoc (h : List Call) (l : Call) : actsOf (h ++ [l]) = actsOf h ++ l.acts := by
  simp [actsOf]

theorem callbacks_snoc (h : List Call) (l : Call) :
    callbacks (actsOf (h ++ [l])) = callbacks (actsOf h) ++ callbacks l.acts := by
  rw [actsOf_snoc, callbacks_append]

theorem bodyOf_snoc (h : List Call) (l : Call) :
    bodyOf (actsOf (h ++ [l])) = bodyOf (actsOf h) ++ bodyOf l.acts := by
  rw [bodyOf, callbacks_snoc, List.flatMap_append]
  rfl

theorem delivered_outcome (r : Response) (rx : List UInt8) (e : TcpEvent) (a : Answers) :
    delivered (outcome r rx e a) = [] := by
  cases e <;> rfl

theorem RunInv.step {h : List Call} {c c' : Conn} {l : Call} (hi : RunInv r h c)
    (hs : Step downloadCallbacks c l c') (hpre : received (h ++ [l]) <+: r.bytes) :
    RunInv r (h ++ [l]) c' := by
  obtain ⟨⟨req, done, hreq, hpromised, hdone, hreq', hacts⟩, hmem⟩ := hs
  obtain ⟨htracks, hdata⟩ := hi.running req hreq
  rw [received_snoc] at hpre
  obtain ⟨done', hdone', hcases⟩ := handle_cases htracks hpromised hpre l.answers
  obtain rfl := Option.some.inj (hdone.symm.trans hdone')
  obtain hadv | ⟨hnone, hfin⟩ := hcases
  · obtain ⟨req', hreq'', htracks'⟩ := hadv.tracks
    refine ⟨?_, ?_, ?_⟩
    · rw [bodyOf_snoc, received_snoc, hi.body, hacts, hadv.body]
    · intro req₂ hreq₂
      rw [hreq', hreq''] at hreq₂
      obtain rfl := Option.some.inj hreq₂
      rw [received_snoc, callbacks_snoc, hacts, hmem, List.forall_mem_append]
      exact ⟨htracks', hdata, hadv.data⟩
    · intro hgone
      rw [hreq', hreq''] at hgone
      simp at hgone
  · refine ⟨?_, ?_, fun _ => ⟨h, l, rfl, hfin.ends, hdata, ?_⟩⟩
    · have hbody : bodyOf l.acts = [] := by
        rw [bodyOf, hacts, hfin.reported, List.flatMap_singleton, delivered_outcome]
      rw [bodyOf_snoc, received_snoc, hi.body, hbody, hnone, List.append_nil, List.append_nil]
    · intro req₂ hreq₂
      rw [hreq', hfin.gone] at hreq₂
      simp at hreq₂
    · rw [received_snoc, callbacks_snoc, hacts, hfin.reported, hnone, List.append_nil]

/-- A request that has just been set up, and the memory then. -/
def initial (text : List UInt8) (mem : Memory) (c : Conn) : Prop :=
  c = ⟨some (initialRequest text), mem⟩

theorem runInv {text : List UInt8} {mem : Memory} {h : List Call} {c : Conn}
    (hr : Reach (initial text mem) (Step downloadCallbacks) h c) (hpre : received h <+: r.bytes) :
    RunInv r h c := by
  apply hr.invariant (fun h c => received h <+: r.bytes → RunInv r h c)
  · rintro c rfl -
    refine ⟨by simp [received, actsOf, bodyOf, callbacks], ?_, ?_⟩
    · intro req hreq
      obtain rfl := Option.some.inj hreq
      exact ⟨tracks_initial r text mem, by simp [actsOf, callbacks]⟩
    · intro hgone
      simp at hgone
  · intro h c l c' hi hs hpre
    refine (hi ?_).step hs hpre
    rw [received_snoc] at hpre
    exact (List.prefix_append _ _).trans hpre
  · exact hpre

/-- However the stream of a response is cut into segments and these into pbufs,
and whatever other calls come in between, what is passed on is the body, from
its first byte on, and no call goes wrong. The result is reported once, by the
call that ends the request, and is the one that the bytes of the response call
for. -/
theorem response_delivered (r : Response) {text : List UInt8} {mem : Memory} {h : List Call} {c : Conn}
    (hr : Reach (initial text mem) (Step downloadCallbacks) h c) (hpre : received h <+: r.bytes) :
    bodyOf (actsOf h) = (received h).drop r.head.length ∧
      (∀ req, c.req = some req → (∀ e ∈ callbacks (actsOf h), Delivers e) ∧
        ∀ e a, Promised c.mem req e → received h ++ stream e <+: r.bytes →
          ∃ done, handle downloadCallbacks a req e = some done) ∧
      (c.req = none → ∃ pre l, h = pre ++ [l] ∧ Ends l.event ∧ (∀ e ∈ callbacks (actsOf pre), Delivers e) ∧
        callbacks (actsOf h) = callbacks (actsOf pre) ++ [outcome r (received h) l.event l.answers]) := by
  obtain ⟨hbody, hrunning, hfinished⟩ := runInv hr hpre
  refine ⟨hbody, ?_, hfinished⟩
  intro req hreq
  obtain ⟨htracks, hdata⟩ := hrunning req hreq
  refine ⟨hdata, ?_⟩
  intro e a hpromised hmore
  obtain ⟨done, hdone, -⟩ := handle_cases htracks hpromised hmore a
  exact ⟨done, hdone⟩

def exampleResponse : Response where
  head := ascii ['H', 'T', 'T', 'P', '/', '1', '.', '1', ' ', '2', '0', '0', ' ', 'O', 'K'] ++ crlf ++
    contentLengthName ++ ascii ['2'] ++ crlf ++ crlf
  body := ascii ['o', 'k']
  status := 200
  contentLen := 2
  lineEnd := 15
  space1 := 8
  space2 := 12
  name := by decide +kernel
  dot := by decide +kernel
  line := by decide +kernel
  first_blank := by decide +kernel
  second_blank := by decide +kernel
  blank_lt := by decide
  status_fits := by decide
  number := by decide +kernel
  status_pos := by decide
  status_le := by decide
  headers_end := by decide +kernel
  length := @GivesLength.given _ _ 17 34 _ (by decide +kernel) (by decide +kernel) (by decide) (by decide +kernel)

def exampleMemory : Memory := fun a => (exampleResponse.bytes[a - 256]?).getD 0

def examplePbuf (offset len : Fin 64) : Pbuf where
  payload := 256 + offset
  len := len
  len_lt := len.isLt.trans (by decide)
  fits := by omega

/-- The headers come in two segments, and the second one also has the body. -/
def exampleEvents : List TcpEvent :=
  [.recv exampleMemory (some ⟨examplePbuf 0 20, []⟩) .ok,
    .recv exampleMemory (some ⟨examplePbuf 20 18, [examplePbuf 38 2]⟩) .ok,
    .recv exampleMemory none .ok]

theorem received_eq (h : List Call) : received h = (h.map Call.event).flatMap stream := by
  simp [received, List.flatMap_map]

theorem Tracks.size_le (h : Tracks r rx mem req) : size req.rxHdrs ≤ rx.length := by
  rw [Tracks] at h
  split_ifs at h
  · rw [← h.hdrs, length_payload]
  · rw [h.hdrs]
    exact Nat.zero_le _

theorem RunInv.exists_step {h : List Call} {c : Conn} {e : TcpEvent} (hi : RunInv r h c) (hreq : c.req = some req)
    (hpromised : Promised c.mem req e) (hpre : received h ++ stream e <+: r.bytes) (a : Answers) :
    ∃ l c', Step downloadCallbacks c l c' ∧ l.event = e ∧ (¬ Ends e → ∃ req', c'.req = some req') := by
  obtain ⟨htracks, -⟩ := hi.running req hreq
  obtain ⟨done, hdone, hcases⟩ := handle_cases htracks hpromised hpre a
  refine ⟨⟨e, a, done.acts⟩, ⟨done.req, memoryAt c.mem e⟩, ⟨⟨req, done, hreq, hpromised, hdone, rfl, rfl⟩, rfl⟩,
    rfl, ?_⟩
  intro hgoes
  obtain hadv | ⟨-, hfin⟩ := hcases
  · obtain ⟨req', hreq', -⟩ := hadv.tracks
    exact ⟨req', hreq'⟩
  · exact absurd hfin.ends hgoes

theorem exists_segment {text : List UInt8} {h : List Call} {c : Conn} {p : PbufChain}
    (hr : Reach (initial text mem) (Step downloadCallbacks) h c) (hmem : c.mem = mem) (hreq : c.req = some req)
    (hsmall : (received h).length + size p.elements < 2 ^ 16) (a : Answers)
    (hpre : received h ++ payload mem p.elements <+: r.bytes) :
    ∃ l c', Reach (initial text mem) (Step downloadCallbacks) (h ++ [l]) c' ∧
      l.event = .recv mem (some p) .ok ∧ c'.mem = mem ∧ ∃ req', c'.req = some req' := by
  have hi := runInv hr ((List.prefix_append _ _).trans hpre)
  have hsize := (hi.running req hreq).1.size_le
  obtain ⟨l, c', hs, hevent, hgoes⟩ := hi.exists_step (e := .recv mem (some p) .ok) hreq
    ⟨rfl, by rw [hmem], by omega⟩ hpre a
  refine ⟨l, c', hr.step hs, hevent, ?_, hgoes id⟩
  rw [hs.mem, hevent]
  rfl

theorem example_run (a : Answers) :
    ∃ h c, Reach (initial [0] exampleMemory) (Step downloadCallbacks) h c ∧
      h.map Call.event = exampleEvents ∧ c.req = none := by
  obtain ⟨m, hm⟩ : ∃ m, m = exampleMemory := ⟨_, rfl⟩
  rw [exampleEvents, ← hm]
  obtain ⟨p₁, hp₁⟩ : ∃ p : PbufChain, p = ⟨examplePbuf 0 20, []⟩ := ⟨_, rfl⟩
  obtain ⟨p₂, hp₂⟩ : ∃ p : PbufChain, p = ⟨examplePbuf 20 18, [examplePbuf 38 2]⟩ := ⟨_, rfl⟩
  have hinit : Reach (initial [0] m) (Step downloadCallbacks) [] ⟨some (initialRequest [0]), m⟩ := .init rfl
  have hdata : payload m p₁.elements ++ payload m p₂.elements = exampleResponse.bytes := by
    rw [hm, hp₁, hp₂]
    decide +kernel
  have hsize : size p₁.elements = 20 ∧ size p₂.elements = 20 := by
    rw [hp₁, hp₂]
    exact ⟨rfl, rfl⟩
  rw [← hp₁, ← hp₂]
  obtain ⟨l₁, c₁, hr₁, hl₁, hm₁, req₁, hreq₁⟩ := exists_segment (r := exampleResponse) (p := p₁) hinit rfl rfl
    (by rw [hsize.1]; decide) a (by rw [← hdata]; exact List.prefix_append _ _)
  have hrx : received ([] ++ [l₁]) = payload m p₁.elements := by
    rw [received_snoc, hl₁]
    rfl
  obtain ⟨l₂, c₂, hr₂, hl₂, hm₂, req₂, hreq₂⟩ := exists_segment (r := exampleResponse) (p := p₂) hr₁ hm₁ hreq₁
    (by rw [hrx, length_payload]; omega) a (by rw [hrx, hdata])
  have hdone : handle downloadCallbacks a req₂ (.recv m none .ok) =
      some (httpcClose downloadCallbacks a req₂ (closedResult req₂) req₂.rxStatus .ok) := rfl
  have hclose : Step downloadCallbacks c₂ ⟨.recv m none .ok, a, _⟩ ⟨none, m⟩ :=
    ⟨⟨req₂, _, hreq₂, trivial, hdone, rfl, rfl⟩, rfl⟩
  refine ⟨_, _, hr₂.step hclose, ?_, rfl⟩
  simp [hl₁, hl₂]

/-- The whole of the response is reported as a success. -/
theorem response_delivered_example :
    ∃ h c, Reach (initial [0] exampleMemory) (Step downloadCallbacks) h c ∧
      bodyOf (actsOf h) = exampleResponse.body ∧
      (callbacks (actsOf h)).getLast? = some (.result .ok 2 200 .ok) := by
  obtain ⟨h, c, hr, hevents, hgone⟩ := example_run ⟨.ok, .ok, .ok, .ok⟩
  have hrx : received h = exampleResponse.bytes := by
    rw [received_eq, hevents]
    decide +kernel
  obtain ⟨hbody, -, hfin⟩ := response_delivered exampleResponse hr (hrx ▸ List.prefix_rfl)
  obtain ⟨pre, l, rfl, -, -, hcalls⟩ := hfin hgone
  refine ⟨_, c, hr, ?_, ?_⟩
  · rw [hbody, hrx]
    decide +kernel
  · have hlast : l.event = .recv exampleMemory none .ok := by
      have hlast := congrArg List.getLast? hevents
      rw [List.map_append] at hlast
      simpa [exampleEvents] using hlast
    rw [hcalls, hlast, hrx, List.getLast?_append]
    rfl

end FlashApp.Httpc
