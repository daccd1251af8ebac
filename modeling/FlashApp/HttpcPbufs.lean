import FlashApp.HttpcRuns
import Mathlib.Data.List.Forall2

namespace FlashApp.Httpc

open Bytes Lwip PbufRead Main Machine

/-- An element is what is left of another one when bytes at its front are
hidden. -/
def Part (b' b : Pbuf) : Prop := b.payload ≤ b'.payload ∧ b'.payload + b'.len = b.payload + b.len

theorem Part.refl (b : Pbuf) : Part b b := ⟨le_rfl, rfl⟩

theorem Part.trans {b b' b'' : Pbuf} (h : Part b'' b') (h' : Part b' b) : Part b'' b :=
  ⟨h'.1.trans h.1, h.2.trans h'.2⟩

abbrev Parts : List Pbuf → List Pbuf → Prop := List.Forall₂ Part

theorem Parts.refl (bs : List Pbuf) : Parts bs bs := List.forall₂_same.mpr fun b _ => Part.refl b

theorem Parts.trans {bs bs' bs'' : List Pbuf} (h : Parts bs'' bs') (h' : Parts bs' bs) : Parts bs'' bs := by
  induction h generalizing bs with
  | nil => exact h'
  | cons hb _ ih =>
    cases h' with
    | cons hb' ht => exact .cons (hb.trans hb') (ih ht)

theorem Parts.exists_mem {bs bs' : List Pbuf} (h : Parts bs' bs) {b' : Pbuf} (hb : b' ∈ bs') :
    ∃ b ∈ bs, Part b' b := by
  induction h with
  | nil => simp at hb
  | @cons x y xs ys hxy _ ih =>
    obtain rfl | hb := List.mem_cons.mp hb
    · exact ⟨y, List.mem_cons_self, hxy⟩
    · obtain ⟨b, hmem, hpart⟩ := ih hb
      exact ⟨b, List.mem_cons_of_mem y hmem, hpart⟩

/-- The elements that an act gives away: to the pbuf memory or to a callback. -/
def release : Act → List Pbuf
  | .free bs => bs
  | .callback (.data _ (some p) _) => p.elements
  | _ => []

def released (acts : List Act) : List Pbuf := acts.flatMap release

def arrivals : TcpEvent → List Pbuf
  | .recv _ (some p) _ => p.elements
  | _ => []

def held : Option HttpcState → List Pbuf
  | none => []
  | some req => req.rxHdrs

def isResult : HttpEvent → Bool
  | .result .. => true
  | _ => false

def isData : Act → Bool
  | .callback (.data ..) => true
  | _ => false

def isPoll : TcpEvent → Bool
  | .poll => true
  | _ => false

/-- When the headers are done, none of them are held. -/
def HeadersDone (req : HttpcState) : Prop := req.parseState = .rxData → req.rxHdrs = []

/-- What a call can do, whatever the server has sent. -/
structure Handled (cb : Callbacks) (req : HttpcState) (e : TcpEvent) (done : Done) : Prop where
  pbufs : Parts (released done.acts ++ held done.req) (req.rxHdrs ++ arrivals e)
  hdrs : ∀ req', done.req = some req' → HeadersDone req'
  results : cb.resultFn = true → (callbacks done.acts).countP isResult = if done.req.isSome then 0 else 1
  ticks : cb.recvFn = true → ∀ req', done.req = some req' → req'.timeoutTicks =
    if done.acts.any isData then pollTimeout else req.timeoutTicks - if isPoll e then 1 else 0

theorem released_append (xs ys : List Act) : released (xs ++ ys) = released xs ++ released ys :=
  List.flatMap_append

theorem pbufFreeHeader_parts (p : List Pbuf) (n : Nat) :
    Parts ((pbufFreeHeader p n).2 ++ (pbufFreeHeader p n).1) p := by
  induction p generalizing n with
  | nil => exact .nil
  | cons b bs ih =>
    rw [pbufFreeHeader]
    split_ifs with hzero hlen
    · exact Parts.refl _
    · exact .cons (Part.refl b) (ih _)
    · refine .cons ⟨?_, ?_⟩ (Parts.refl bs)
      · simp only [pbufRemoveHeader]
        omega
      · simp only [pbufRemoveHeader]
        omega

theorem released_httpcFreeState (a : Answers) (req : HttpcState) :
    released (httpcFreeState a req).2 = req.rxHdrs := by
  by_cases hhdrs : req.rxHdrs = []
  · simp only [httpcFreeState, hhdrs]
    split_ifs <;> rfl
  · simp only [httpcFreeState]
    split_ifs <;> simp [released, release] at *

theorem released_httpcClose (cb : Callbacks) (a : Answers) (req : HttpcState) (result : HttpcResult)
    (srv : Nat) (err : ErrT) : released (httpcClose cb a req result srv err).acts = req.rxHdrs := by
  simp only [httpcClose, released_append, released_httpcFreeState]
  split_ifs <;> rfl

variable {cb : Callbacks} {a : Answers} {req : HttpcState} {e : TcpEvent} {m : Memory}

theorem httpcClose_handled (req' : HttpcState) (pre : List Act) (hcalls : callbacks pre = [])
    (hrel : released pre = []) (hhdrs : req'.rxHdrs = req.rxHdrs ++ arrivals e) (result : HttpcResult)
    (srv : Nat) (err : ErrT) :
    Handled cb req e { httpcClose cb a req' result srv err with
      acts := pre ++ (httpcClose cb a req' result srv err).acts } where
  pbufs := by
    have hnone : held (httpcClose cb a req' result srv err).req = [] := rfl
    rw [released_append, hrel, released_httpcClose, hhdrs, List.nil_append, hnone, List.append_nil]
    exact Parts.refl _
  hdrs := by simp [httpcClose]
  results hcb := by
    rw [callbacks_append, hcalls, callbacks_httpcClose hcb]
    rfl
  ticks _ := by simp [httpcClose]

theorem silent_handled {req' : HttpcState} {acts : List Act} (hacts : acts.all fun x => ¬ isData x)
    (hcalls : callbacks acts = []) (hrel : released acts = []) (hhdrs : req'.rxHdrs = req.rxHdrs ++ arrivals e)
    (hdone : HeadersDone req') (hticks : req'.timeoutTicks = req.timeoutTicks - if isPoll e then 1 else 0)
    (ret : ErrT) : Handled cb req e ⟨ret, some req', acts⟩ where
  pbufs := by
    rw [hrel, held, hhdrs]
    exact Parts.refl _
  hdrs req₂ h := by
    obtain rfl := Option.some.inj h
    exact hdone
  results _ := by rw [hcalls]; rfl
  ticks _ req₂ h := by
    obtain rfl := Option.some.inj h
    have hnone : acts.any isData = false := by simpa using hacts
    rw [hticks, hnone]
    rfl

theorem receiveData_handled {req' : HttpcState} {p : PbufChain} {r : ErrT} (pre : List Act) {freed : List Pbuf}
    (hcalls : callbacks pre = []) (hrel : released pre = freed)
    (hparts : Parts (freed ++ p.elements) (req.rxHdrs ++ arrivals e)) (hhdrs : req'.rxHdrs = []) :
    Handled cb req e { receiveData cb a m req' p r with
      acts := pre ++ (receiveData cb a m req' p r).acts } where
  pbufs := by
    rw [released_append, hrel]
    simp only [receiveData]
    split_ifs <;> simpa [released, release, held, hhdrs] using hparts
  hdrs req₂ h := by
    simp only [receiveData] at h
    split_ifs at h <;> (obtain rfl := Option.some.inj h; exact fun _ => hhdrs)
  results _ := by
    rw [callbacks_append, hcalls]
    by_cases hrecv : cb.recvFn = true <;> simp only [receiveData, hrecv] <;> rfl
  ticks hcb req₂ h := by
    simp only [receiveData, hcb, ↓reduceIte] at h ⊢
    obtain rfl := Option.some.inj h
    simp [isData]

theorem receiveFirstLine_kept {req' : HttpcState} (h : receiveFirstLine m req = some req') :
    req'.rxHdrs = req.rxHdrs ∧ req'.timeoutTicks = req.timeoutTicks ∧
      (req.parseState ≠ .rxData → req'.parseState ≠ .rxData) := by
  unfold receiveFirstLine at h
  split_ifs at h with hstate
  · obtain ⟨⟨err, version, status⟩, -, hreq⟩ := Option.bind_eq_some_iff.mp h
    simp only at hreq
    split_ifs at hreq
    · obtain rfl := Option.some.inj hreq
      exact ⟨rfl, rfl, fun _ => by simp⟩
    · obtain rfl := Option.some.inj hreq
      exact ⟨rfl, rfl, id⟩
  · obtain rfl := Option.some.inj h
    exact ⟨rfl, rfl, id⟩

theorem receiveHeaders_handled (req' : HttpcState) (hhdrs : req'.rxHdrs = req.rxHdrs ++ arrivals e)
    (hticks : req'.timeoutTicks = req.timeoutTicks) (hpoll : isPoll e = false) (totalHeaderLen : Nat) (r : ErrT) :
    Handled cb req e (receiveHeaders cb a m req' totalHeaderLen r) := by
  have hparts := pbufFreeHeader_parts req'.rxHdrs totalHeaderLen
  obtain ⟨calls, hcallsEq⟩ : ∃ calls, calls = if cb.headersDoneFn then
      [Act.headersDone req'.rxHdrs totalHeaderLen req'.hdrContentLen] else [] := ⟨_, rfl⟩
  have hcalls : callbacks calls = [] ∧ released calls = [] ∧ calls.any isData = false := by
    rw [hcallsEq]
    split_ifs <;> exact ⟨rfl, rfl, rfl⟩
  simp only [receiveHeaders, ← hcallsEq]
  split_ifs with hrefused
  · exact httpcClose_handled _ (.recved totalHeaderLen :: calls) hcalls.1 hcalls.2.1 hhdrs _ _ _
  · generalize hq : (pbufFreeHeader req'.rxHdrs totalHeaderLen).1 = q at hparts
    generalize hf : (pbufFreeHeader req'.rxHdrs totalHeaderLen).2 = freed at hparts
    rw [hhdrs] at hparts
    have hfreed : released (.recved totalHeaderLen :: calls ++ [.free freed]) = freed := by
      rw [released_append, released, List.flatMap_cons, ← released, hcalls.2.1]
      simp [released, release]
    have hnone : callbacks (.recved totalHeaderLen :: calls ++ [.free freed]) = [] := by
      rw [callbacks_append, callbacks, List.filterMap_cons, ← callbacks, hcalls.1]
      rfl
    cases q with
    | nil =>
      refine ⟨?_, ?_, ?_, ?_⟩
      · rw [hfreed]
        exact hparts
      · intro req₂ h
        obtain rfl := Option.some.inj h
        exact fun _ => rfl
      · intro _
        rw [hnone]
        rfl
      · intro _ req₂ h
        obtain rfl := Option.some.inj h
        simp [isData, hcalls.2.2, hpoll, hticks]
    | cons b bs => exact receiveData_handled _ hnone hfreed hparts rfl

theorem httpcTcpRecv_handled {p : Option PbufChain} {r : ErrT} {done : Done} (hreq : HeadersDone req)
    (h : httpcTcpRecv cb a m req p r = some done) : Handled cb req (.recv m p r) done := by
  cases p with
  | none =>
    obtain rfl := Option.some.inj h
    exact httpcClose_handled _ [] rfl rfl (by simp [arrivals]) _ _ _
  | some p =>
    by_cases hstate : req.parseState = .rxData
    · simp only [httpcTcpRecv, hstate, ↓reduceIte, Option.some.injEq] at h
      subst h
      have hnone := hreq hstate
      exact receiveData_handled [] rfl rfl (by rw [hnone]; exact Parts.refl _) hnone
    · simp only [httpcTcpRecv, hstate, ↓reduceIte, Option.bind_eq_bind, Option.bind_eq_some_iff] at h
      obtain ⟨req', hfirst, h⟩ := h
      obtain ⟨hhdrs, hticks, hnot⟩ := receiveFirstLine_kept hfirst
      have hsilent : Handled cb req (.recv m (some p) r) ⟨.ok, some req', []⟩ := by
        apply silent_handled rfl rfl rfl hhdrs
        · exact fun hd => absurd hd (hnot hstate)
        · exact hticks
      split_ifs at h with hwait
      · obtain ⟨o, -, ho⟩ := Option.bind_eq_some_iff.mp h
        cases o with
        | none =>
          obtain rfl := Option.some.inj ho
          exact hsilent
        | some x =>
          obtain rfl := Option.some.inj ho
          exact receiveHeaders_handled (e := .recv m (some p) r) { req' with hdrContentLen := x.1 }
            hhdrs hticks rfl _ _
      · obtain rfl := Option.some.inj h
        exact hsilent

theorem handle_handled {done : Done} (hreq : HeadersDone req) (h : handle cb a req e = some done) :
    Handled cb req e done := by
  have hnil : req.rxHdrs = req.rxHdrs ++ [] := (List.append_nil _).symm
  cases e with
  | connected =>
    obtain ⟨text, -, h⟩ := Option.bind_eq_some_iff.mp h
    simp only at h
    split_ifs at h
    · obtain rfl := Option.some.inj h
      refine silent_handled ?_ ?_ ?_ ?_ ?_ ?_ _
      · rfl
      · rfl
      · rfl
      · exact hnil
      · exact hreq
      · rfl
    · obtain rfl := Option.some.inj h
      exact httpcClose_handled _ [.write text.dropLast] rfl rfl hnil _ _ _
  | recv contents p r => exact httpcTcpRecv_handled hreq h
  | sent len =>
    obtain rfl := Option.some.inj h
    exact silent_handled (e := .sent len) rfl rfl rfl hnil hreq rfl _
  | poll =>
    obtain rfl := Option.some.inj h
    simp only [httpcTcpPoll]
    split_ifs
    · exact httpcClose_handled _ [] rfl rfl hnil _ _ _
    · refine silent_handled ?_ ?_ ?_ ?_ ?_ ?_ _
      · rfl
      · rfl
      · rfl
      · exact hnil
      · exact hreq
      · rfl
  | err err =>
    obtain rfl := Option.some.inj h
    exact httpcClose_handled (a := a) { req with pcb := false } [] rfl rfl hnil _ _ _

/-- The polls since the last data was passed on. -/
def quiet (h : List Call) : Nat :=
  h.foldl (fun n l => if l.acts.any isData then 0 else if isPoll l.event then n + 1 else n) 0

/-- A request after the calls `h`, whatever the server has sent. -/
structure Ledger (cb : Callbacks) (h : List Call) (c : Conn) : Prop where
  pbufs : Parts (released (actsOf h) ++ held c.req) (h.flatMap fun l => arrivals l.event)
  hdrs : ∀ req, c.req = some req → HeadersDone req
  results : cb.resultFn = true → (callbacks (actsOf h)).countP isResult = if c.req.isSome then 0 else 1
  ticks : cb.recvFn = true → ∀ req, c.req = some req →
    req.timeoutTicks + quiet h = pollTimeout ∧ 0 < req.timeoutTicks
  last : cb.recvFn = true → ∀ pre l, h = pre ++ [l] → l.event = .poll →
    (c.req = none ↔ quiet h = pollTimeout)

theorem quiet_snoc (h : List Call) (l : Call) : quiet (h ++ [l]) =
    if l.acts.any isData then 0 else if isPoll l.event then quiet h + 1 else quiet h := by
  rw [quiet, List.foldl_append]
  rfl

theorem poll_ends_iff {done : Done} (h : handle cb a req .poll = some done) :
    done.req = none ↔ req.timeoutTicks ≤ 1 := by
  obtain rfl := Option.some.inj h
  simp only [httpcTcpPoll]
  split_ifs with hzero
  · simp only [httpcClose, true_iff]
    omega
  · simp only [false_iff]
    omega

theorem poll_no_data {done : Done} (h : handle cb a req .poll = some done) : done.acts.any isData = false := by
  obtain rfl := Option.some.inj h
  simp only [httpcTcpPoll, httpcClose, httpcFreeState]
  split_ifs <;> rfl

theorem Ledger.step {h : List Call} {c c' : Conn} {l : Call} (hi : Ledger cb h c) (hs : Step cb c l c') :
    Ledger cb (h ++ [l]) c' := by
  obtain ⟨⟨req, done, hreq, -, hdone, hreq', hacts⟩, -⟩ := hs
  have hh := handle_handled (hi.hdrs req hreq) hdone
  refine ⟨?_, ?_, ?_, ?_, ?_⟩
  · have hold := hi.pbufs
    rw [hreq, held] at hold
    have hnew : Parts (released (actsOf h) ++ (released done.acts ++ held done.req))
        (released (actsOf h) ++ (req.rxHdrs ++ arrivals l.event)) :=
      List.rel_append (Parts.refl _) hh.pbufs
    have hall : Parts (released (actsOf h) ++ req.rxHdrs ++ arrivals l.event)
        ((h.flatMap fun l => arrivals l.event) ++ arrivals l.event) :=
      List.rel_append hold (Parts.refl _)
    rw [actsOf_snoc, released_append, hacts, hreq', List.flatMap_append, List.flatMap_singleton,
      List.append_assoc]
    rw [List.append_assoc] at hall
    exact hnew.trans hall
  · rw [hreq']
    exact hh.hdrs
  · intro hcb
    have hold := hi.results hcb
    rw [hreq] at hold
    rw [callbacks_snoc, List.countP_append, hold, hacts, hh.results hcb, hreq']
    exact Nat.zero_add _
  · intro hcb req₂ hreq₂
    obtain ⟨hsum, hpos⟩ := hi.ticks hcb req hreq
    rw [hreq'] at hreq₂
    have hticks := hh.ticks hcb req₂ hreq₂
    rw [quiet_snoc, hacts]
    by_cases hdata : done.acts.any isData = true
    · simp only [hdata, ↓reduceIte] at hticks ⊢
      rw [hticks]
      exact ⟨rfl, by decide⟩
    · simp only [hdata, Bool.false_eq_true, ↓reduceIte] at hticks ⊢
      by_cases hpoll : isPoll l.event = true
      · have hevent : l.event = .poll := by
          cases he : l.event <;> rw [he] at hpoll <;> first | rfl | cases hpoll
        have hlast := poll_ends_iff (hevent ▸ hdone)
        simp only [hpoll, ↓reduceIte] at hticks ⊢
        have hmore : ¬ req.timeoutTicks ≤ 1 := by
          rw [← hlast, hreq₂]
          simp
        omega
      · simp only [hpoll, Bool.false_eq_true, ↓reduceIte] at hticks ⊢
        omega
  · intro hcb pre l' heq hevent
    obtain ⟨-, hl⟩ := List.append_inj' heq rfl
    obtain ⟨rfl, -⟩ := List.cons.inj hl
    obtain ⟨hsum, hpos⟩ := hi.ticks hcb req hreq
    rw [hevent] at hdone
    rw [quiet_snoc, hacts, poll_no_data hdone, hevent, hreq', poll_ends_iff hdone]
    simp only [isPoll, Bool.false_eq_true, ↓reduceIte]
    omega

theorem ledger {text : List UInt8} {mem : Memory} {h : List Call} {c : Conn}
    (hr : Reach (initial text mem) (Step cb) h c) : Ledger cb h c := by
  apply hr.invariant (fun h c => Ledger cb h c)
  · rintro c rfl
    refine ⟨.nil, ?_, fun _ => rfl, ?_, ?_⟩
    · intro req hreq
      obtain rfl := Option.some.inj hreq
      exact fun _ => rfl
    · intro _ req hreq
      obtain rfl := Option.some.inj hreq
      exact ⟨rfl, Nat.succ_pos 29⟩
    · intro _ pre l h
      simp at h
  · intro h c l c' hi hs
    exact hi.step hs

/-- The text of the status that is copied from the first line. -/
def statusNum (m : Memory) (p : List Pbuf) : List UInt8 :=
  let space1 := pbufMemfind m p blank 0
  let space2 := pbufMemfind m p blank (space1 + 1)
  let statusNumLen :=
    if space2 ≠ 0xFFFF then sub32 (sub32 space2 space1) 1 else sub32 (sub32 (pbufMemfind m p crlf 0) space1) 1
  pbufCopyPartial m p (statusNumLen % 2 ^ 16) (space1 + 1)

/-- The text of the content length that is copied from the headers. -/
def contentLenNum (m : Memory) (p : List Pbuf) : List UInt8 :=
  let contentLenHdr := pbufMemfind m p contentLengthName 0
  let contentLenLineEnd := pbufMemfind m p crlf contentLenHdr
  pbufCopyPartial m p ((contentLenLineEnd + 2 ^ 16 - contentLenHdr - 16) % 2 ^ 16) (contentLenHdr + 16)

/-- A text that does not fit into its array of `n` bytes, or that `atoi` is not
defined for. -/
def BadNumber (n : Nat) (text : List UInt8) : Prop := n < text.length ∨ atoi (fill n text) = none

theorem badNumber_of_parseStatus {p : List Pbuf} {version status : Nat}
    (h : httpParseResponseStatus m p version status = none) : BadNumber 10 (statusNum m p) := by
  by_contra hgood
  obtain ⟨hfits, hdef⟩ := not_or.mp hgood
  obtain ⟨n, hn⟩ := Option.ne_none_iff_exists'.mp hdef
  simp only [statusNum] at hfits hn
  simp only [httpParseResponseStatus, hfits, hn, ↓reduceIte, Option.bind_eq_bind, Option.bind_some] at h
  split_ifs at h

theorem badNumber_of_contentLength {p : List Pbuf} (h : contentLength m p = none) :
    BadNumber 16 (contentLenNum m p) := by
  by_contra hgood
  obtain ⟨hfits, hdef⟩ := not_or.mp hgood
  obtain ⟨n, hn⟩ := Option.ne_none_iff_exists'.mp hdef
  simp only [contentLenNum] at hfits hn
  simp only [contentLength, hfits, hn, ↓reduceIte, Option.bind_eq_bind, Option.bind_some] at h
  split_ifs at h

theorem badNumber_of_firstLine (h : receiveFirstLine m req = none) : BadNumber 10 (statusNum m req.rxHdrs) := by
  unfold receiveFirstLine at h
  split_ifs at h
  rw [Option.bind_eq_bind, Option.bind_eq_none_iff] at h
  cases hparse : httpParseResponseStatus m req.rxHdrs req.rxHttpVersion req.rxStatus with
  | none => exact badNumber_of_parseStatus hparse
  | some x =>
    have hrest := h x hparse
    simp only at hrest
    split_ifs at hrest

theorem badNumber_of_waitHeaders {p : List Pbuf} (h : httpWaitHeaders m p = none) :
    BadNumber 16 (contentLenNum m p) := by
  simp only [httpWaitHeaders] at h
  split_ifs at h
  cases hlen : contentLength m p with
  | none => exact badNumber_of_contentLength hlen
  | some len =>
    rw [hlen] at h
    cases h

/-- What makes a call undefined: a bad number in the first line or in the
headers, as long as these are not done. -/
def Undefined (req : HttpcState) (e : TcpEvent) : Prop :=
  ∃ contents p r, e = .recv contents (some p) r ∧ req.parseState ≠ .rxData ∧
    (BadNumber 10 (statusNum contents (req.rxHdrs ++ p.elements)) ∨
      BadNumber 16 (contentLenNum contents (req.rxHdrs ++ p.elements)))

theorem undefined_of_handle {mem : Memory} (hp : Promised mem req e) (h : handle cb a req e = none) :
    Undefined req e := by
  cases e with
  | connected =>
    obtain ⟨text, htext⟩ := Option.isSome_iff_exists.mp hp
    simp only [handle, httpcTcpConnected, htext, Option.bind_eq_bind, Option.bind_some] at h
    split_ifs at h
  | recv contents p r =>
    cases p with
    | none => cases h
    | some p =>
      by_cases hstate : req.parseState = .rxData
      · simp [handle, httpcTcpRecv, hstate] at h
      · refine ⟨contents, p, r, rfl, hstate, ?_⟩
        simp only [handle, httpcTcpRecv, hstate, ↓reduceIte, Option.bind_eq_bind, Option.bind_eq_none_iff] at h
        cases hfirst : receiveFirstLine contents { req with rxHdrs := req.rxHdrs ++ p.elements } with
        | none => exact .inl (badNumber_of_firstLine hfirst)
        | some req' =>
          have hrest := h req' hfirst
          have hhdrs := (receiveFirstLine_kept hfirst).1
          simp only at hhdrs
          split_ifs at hrest with hwait
          cases hheaders : httpWaitHeaders contents req'.rxHdrs with
          | none =>
            rw [hhdrs] at hheaders
            exact .inr (badNumber_of_waitHeaders hheaders)
          | some o =>
            rw [hheaders] at hrest
            cases o with
            | none => cases hrest
            | some x => cases hrest
  | sent len => cases h
  | poll => cases h
  | err err => cases h

/-- Whatever a server sends: every pbuf that a request gets is given away once,
in the order they come in, or still held; at the end nothing is held. There is
no result before the end, and one at the end. The run goes on with any call
that is not undefined. -/
theorem request_releases {text : List UInt8} {mem : Memory} {h : List Call} {c : Conn}
    (hr : Reach (initial text mem) (Step cb) h c) :
    Parts (released (actsOf h) ++ held c.req) (h.flatMap fun l => arrivals l.event) ∧
      (c.req = none → Parts (released (actsOf h)) (h.flatMap fun l => arrivals l.event)) ∧
      (cb.resultFn = true → (callbacks (actsOf h)).countP isResult = if c.req.isSome then 0 else 1) ∧
      ∀ req e a, c.req = some req → Promised c.mem req e → ¬ Undefined req e →
        ∃ acts c', Step cb c ⟨e, a, acts⟩ c' := by
  have hl := ledger hr
  refine ⟨hl.pbufs, ?_, hl.results, ?_⟩
  · intro hgone
    have hpbufs := hl.pbufs
    rwa [hgone, held, List.append_nil] at hpbufs
  · intro req e a hreq hp hdef
    cases hdone : handle cb a req e with
    | none => exact absurd (undefined_of_handle hp hdone) hdef
    | some done => exact ⟨done.acts, ⟨done.req, memoryAt c.mem e⟩, ⟨req, done, hreq, hp, hdone, rfl, rfl⟩, rfl⟩

theorem request_releases_example :
    ∃ h c, Reach (initial [0] exampleMemory) (Step downloadCallbacks) h c ∧
      Parts (released (actsOf h)) (exampleEvents.flatMap arrivals) ∧
      (callbacks (actsOf h)).countP isResult = 1 := by
  obtain ⟨h, c, hr, hevents, hgone⟩ := example_run ⟨.ok, .ok, .ok, .ok⟩
  obtain ⟨-, hend, hresults, -⟩ := request_releases hr
  have hpbufs := hend hgone
  have hone := hresults rfl
  rw [← List.flatMap_map, hevents] at hpbufs
  rw [hgone] at hone
  exact ⟨h, c, hr, hpbufs, hone⟩

/-- A request with a function for its data is given up by a poll exactly if
that is the thirtieth one without data before it. -/
theorem request_times_out (hcb : cb.recvFn = true) {text : List UInt8} {mem : Memory} {h : List Call} {c : Conn}
    (hr : Reach (initial text mem) (Step cb) h c) :
    (∀ req, c.req = some req → quiet h < pollTimeout) ∧
      ∀ pre l, h = pre ++ [l] → l.event = .poll → (c.req = none ↔ quiet h = pollTimeout) := by
  have hl := ledger hr
  refine ⟨?_, hl.last hcb⟩
  intro req hreq
  obtain ⟨hsum, hpos⟩ := hl.ticks hcb req hreq
  omega

theorem polls_reach (text : List UInt8) (mem : Memory) (a : Answers) {n : Nat} (hn : n < pollTimeout) :
    ∃ h, Reach (initial text mem) (Step downloadCallbacks) h
      ⟨some { initialRequest text with timeoutTicks := pollTimeout - n }, mem⟩ := by
  induction n with
  | zero => exact ⟨[], .init rfl⟩
  | succ n ih =>
    obtain ⟨h, hr⟩ := ih (by omega)
    have hticks : pollTimeout - n - 1 = pollTimeout - (n + 1) := by omega
    have hmore : pollTimeout - (n + 1) ≠ 0 := by omega
    have hs : Step downloadCallbacks ⟨some { initialRequest text with timeoutTicks := pollTimeout - n }, mem⟩
        ⟨.poll, a, []⟩ ⟨some { initialRequest text with timeoutTicks := pollTimeout - (n + 1) }, mem⟩ := by
      refine ⟨⟨_, _, rfl, trivial, rfl, ?_, ?_⟩, rfl⟩
      · simp [httpcTcpPoll, hticks, hmore]
      · simp [httpcTcpPoll, hticks, hmore]
    exact ⟨_, hr.step hs⟩

/-- A server that never answers. -/
theorem request_times_out_example :
    ∃ h c, Reach (initial [0] fun _ => 0) (Step downloadCallbacks) h c ∧ quiet h = 30 ∧ c.req = none := by
  obtain ⟨a, ha⟩ : ∃ a : Answers, a = ⟨.ok, .ok, .ok, .ok⟩ := ⟨_, rfl⟩
  obtain ⟨h, hr⟩ := polls_reach [0] (fun _ => 0) a (by decide : 29 < pollTimeout)
  obtain ⟨done, hdone⟩ : ∃ done, done = httpcTcpPoll downloadCallbacks a
    { initialRequest [0] with timeoutTicks := pollTimeout - 29 } := ⟨_, rfl⟩
  have hgone : done.req = none := by
    rw [hdone]
    rfl
  have hs : Step downloadCallbacks ⟨some { initialRequest [0] with timeoutTicks := pollTimeout - 29 }, fun _ => 0⟩
      ⟨.poll, a, done.acts⟩ ⟨none, fun _ => 0⟩ :=
    ⟨⟨_, done, rfl, trivial, congrArg some hdone.symm, hgone.symm, rfl⟩, rfl⟩
  obtain ⟨-, hlast⟩ := request_times_out rfl (hr.step hs)
  exact ⟨_, _, hr.step hs, (hlast h _ rfl rfl).mp rfl, rfl⟩

end FlashApp.Httpc
