import FlashApp.HttpcPbufs
import FlashApp.Sha384Padding

namespace FlashApp.HttpcDownload

open Bytes Lwip Sha384 HttpDownload Main MainDownload Machine DownloadRuns Httpc

/-- No element of the data ends before the next aligned address, which is what
the hash needs. -/
def Aligned : HttpEvent → Prop
  | .data _ (some p) _ => ∀ b ∈ p.elements, gap b.payload ≤ b.len
  | _ => True

theorem update_eq (m : Memory) {b : Pbuf} (hb : gap b.payload ≤ b.len) :
    ∃ ws, sha384Update m b.payload b.len = some ws ∧ dinBytes ws = slice m b.payload b.len := by
  have hfits := b.fits
  exact update_of_gap_le ⟨m, b.payload, b.len, by omega⟩ hb

theorem copyChain_din (bs : List Pbuf) (stop : Nat) {s s' : CopyState} (hs : s.pucRec ≠ 0)
    (hstop : s.pucRec + s.sizBufLeft = stop) (hlt : stop < 2 ^ 32)
    (hsep : ∀ b ∈ bs, b.payload + b.len ≤ s.pucRec ∨ stop ≤ b.payload)
    (hal : ∀ b ∈ bs, gap b.payload ≤ b.len) (hrun : copyChain bs s = some (.ok, s')) :
    s'.din = s.din ++ payload s.mem bs := by
  induction bs generalizing s with
  | nil =>
    obtain ⟨-, rfl⟩ := Prod.mk.inj (Option.some.inj hrun)
    exact (List.append_nil _).symm
  | cons b bs ih =>
    rw [List.forall_mem_cons] at hsep hal
    obtain ⟨ws, hws, hdin⟩ := update_eq s.mem hal.1
    by_cases hfit : s.sizBufLeft > b.len
    · have hrec : add32 s.pucRec b.len = s.pucRec + b.len := add32_of_lt (by omega)
      simp only [copyChain, hws, Option.bind_eq_bind, Option.bind_some, hs, ne_eq, not_false_eq_true,
        ↓reduceIte, hfit, hrec] at hrun
      have hnext := ih (s := { s with
        din := s.din ++ dinBytes ws
        mem := memcpy s.mem s.pucRec b.payload b.len
        pucRec := s.pucRec + b.len
        sizBufLeft := s.sizBufLeft - b.len }) (by simp only; omega) (by simp only; omega)
        (fun b' hb' => by
          have hb := hsep.2 b' hb'
          simp only
          omega) hal.2 hrun
      have hrest : payload (memcpy s.mem s.pucRec b.payload b.len) bs = payload s.mem bs := by
        apply payload_memcpy
        intro b' hb'
        have hb := hsep.2 b' hb'
        omega
      rw [hnext, hrest, hdin, List.append_assoc]
      rfl
    · simp [copyChain, hws, hs, hfit] at hrun

variable {sha : ShaUnit} {pucBuffer sizBuffer : Nat} {mem : Memory} {d d' : Download}

theorem callback_din {contents : Memory} {p : PbufChain} (hd : Buffer pucBuffer sizBuffer d.http)
    (hpos : 0 < pucBuffer) (hfits : pucBuffer + sizBuffer < 2 ^ 32)
    (hsep : Separate pucBuffer sizBuffer (.data contents (some p) .ok))
    (hal : Aligned (.data contents (some p) .ok))
    (hs : DownloadRuns.Step sha d (.data contents (some p) .ok, .ok) d') :
    d'.din = d.din ++ payload contents p.elements := by
  obtain ⟨hstart, hstop, hle, hcnt⟩ := hd
  have hleft : sub32 d.http.pucEnd d.http.pucCnt = d.http.pucEnd - d.http.pucCnt :=
    sub32_of_le hcnt (by omega)
  simp only [DownloadRuns.Step, callback, httpDownloadDataCallback, arrived, ↓reduceIte, Option.bind_eq_bind,
    Option.bind_eq_some_iff, Option.pure_def, Option.some.injEq, Prod.mk.injEq] at hs
  obtain ⟨⟨e, s⟩, hrun, rfl, rfl⟩ := hs
  have hdin := copyChain_din p.elements d.http.pucEnd (by simp only [Download.copyState]; omega)
    (by simp only [Download.copyState, hleft]; omega) (by omega)
    (fun b hb => by
      have hb' := hsep b hb
      simp only [Download.copyState]
      omega) hal hrun
  rw [← payload_received d.mem contents p]
  exact hdin

theorem exists_download (sha : ShaUnit) (mem : Memory) (hpos : 0 < pucBuffer)
    (hfits : pucBuffer + sizBuffer < 2 ^ 32) (es : List HttpEvent) (hdata : ∀ e ∈ es, Delivers e)
    (hsep : ∀ e ∈ es, Separate pucBuffer sizBuffer e) (hroom : (es.flatMap delivered).length < sizBuffer) :
    ∃ hd d, Reach (· = initialDownload mem pucBuffer sizBuffer) (DownloadRuns.Step sha) hd d ∧
      hd.map Prod.fst = es ∧ (∀ l ∈ hd, l.2 = .ok) ∧
      ((∀ e ∈ es, Aligned e) → d.din = es.flatMap delivered) := by
  induction es using List.reverseRecOn with
  | nil => exact ⟨[], _, .init rfl, rfl, by simp, fun _ => rfl⟩
  | append_singleton es e ih =>
    rw [List.forall_mem_append, List.forall_mem_singleton] at hdata hsep
    have hsplit : (es ++ [e]).flatMap delivered = es.flatMap delivered ++ delivered e := by simp
    rw [hsplit, List.length_append] at hroom
    obtain ⟨hd, d, hr, hes, hok, hdin⟩ := ih hdata.1 hsep.1 (by omega)
    have hinv := reach_inv hpos hfits hr (fun l hl => hsep.1 l.1 (hes ▸ List.mem_map_of_mem hl))
    obtain ⟨hcnt, -⟩ := hinv.stored hok
    have hbody : DownloadRuns.body hd = es.flatMap delivered := by
      rw [← hes, DownloadRuns.body, List.flatMap_map]
    obtain ⟨ret, d', hstep, -⟩ := called sha hinv.buffer hpos hfits hsep.2
    have hstop := hinv.buffer.stop
    obtain rfl : ret = .ok := by
      rw [hbody] at hcnt
      exact (step_ok_iff (l := (e, ret)) hinv.buffer hpos hfits hstep hdata.2).mpr (by simp only; omega)
    have hstep' : DownloadRuns.Step sha d (e, .ok) d' := hstep
    refine ⟨hd ++ [(e, .ok)], d', hr.step hstep', by simp [hes], ?_, ?_⟩
    · rw [List.forall_mem_append, List.forall_mem_singleton]
      exact ⟨hok, rfl⟩
    · intro hal
      rw [List.forall_mem_append, List.forall_mem_singleton] at hal
      obtain ⟨contents, p, rfl⟩ := hdata.2
      rw [callback_din hinv.buffer hpos hfits hsep.2 hal.2 hstep, hdin hal.1, hsplit]
      rfl

def Closed : TcpEvent → Prop
  | .recv _ none _ => True
  | _ => False

theorem outcome_cases (r : Response) (rx : List UInt8) {e : TcpEvent} (he : Ends e) (a : Answers) :
    ∃ res srv err, outcome r rx e a = .result res ((rx.length - r.head.length) % 2 ^ 32) srv err ∧
      ((res = .ok ∧ srv = 200 ∧ err = .ok) ↔ r.status = 200 ∧ verdict r rx = .ok ∧ Closed e) := by
  have hline := r.lineEnd_le
  cases e with
  | recv contents p err =>
    cases p with
    | some p => exact he.elim
    | none =>
      refine ⟨_, _, _, rfl, ?_⟩
      by_cases hv : verdict r rx = .ok
      · have hlen : ¬ rx.length < r.lineEnd + 2 := by
          intro hlt
          rw [verdict, if_pos (by omega)] at hv
          cases hv
        simp [hv, hlen, Closed]
      · simp [hv]
  | sent len => exact he.elim
  | connected => exact ⟨_, _, _, rfl, by simp [Closed]⟩
  | poll => exact ⟨_, _, _, rfl, by simp [Closed]⟩
  | err err => exact ⟨_, _, _, rfl, by simp [Closed]⟩

theorem delivered_result (res : HttpcResult) (len srv : Nat) (err : ErrT) :
    delivered (.result res len srv err) = [] := rfl

theorem exists_finished (sha : ShaUnit) (mem : Memory) (hpos : 0 < pucBuffer)
    (hfits : pucBuffer + sizBuffer < 2 ^ 32) (es : List HttpEvent) (hdata : ∀ e ∈ es, Delivers e)
    (hsep : ∀ e ∈ es, Separate pucBuffer sizBuffer e) (hroom : (es.flatMap delivered).length < sizBuffer)
    (res : HttpcResult) (len srv : Nat) (err : ErrT) :
    ∃ hd d, Reach (· = initialDownload mem pucBuffer sizBuffer) (DownloadRuns.Step sha) hd d ∧
      hd.map Prod.fst = es ++ [.result res len srv err] ∧ (∀ l ∈ hd, l.2 = .ok) ∧ d.http.fIsFinished = 1 ∧
      d.http.pucCnt = pucBuffer + (es.flatMap delivered).length ∧ Holds d.mem pucBuffer (es.flatMap delivered) ∧
      (Successful d.http ↔ res = .ok ∧ srv = 200 ∧ err = .ok) ∧
      (Successful d.http → (∀ e ∈ es, Aligned e) →
        d.http.tHash = sha.digest (es.flatMap delivered ++ dinBytes (sha384FinalizeByte len))) := by
  obtain ⟨hd, d, hrun, hes, hok, hdin⟩ := exists_download sha mem hpos hfits es hdata hsep hroom
  have hstep : DownloadRuns.Step sha d (.result res len srv err, .ok)
      (httpDownloadResultCallback sha d res len srv err) := rfl
  have hrun' := hrun.step hstep
  have hok' : ∀ l ∈ hd ++ [(.result res len srv err, ErrT.ok)], l.2 = .ok := by
    rw [List.forall_mem_append, List.forall_mem_singleton]
    exact ⟨hok, rfl⟩
  have hinv := reach_inv hpos hfits hrun' (by
    rw [List.forall_mem_append, List.forall_mem_singleton]
    exact ⟨fun l hl => hsep l.1 (hes ▸ List.mem_map_of_mem hl), trivial⟩)
  have hbody : DownloadRuns.body (hd ++ [(.result res len srv err, ErrT.ok)]) = es.flatMap delivered := by
    rw [body_append, body_singleton, delivered_result, List.append_nil, DownloadRuns.body, ← hes,
      List.flatMap_map]
  obtain ⟨hcnt, hstored⟩ := hinv.stored hok'
  rw [hbody] at hcnt hstored
  refine ⟨_, _, hrun', by rw [List.map_append, hes]; rfl, hok', rfl, hcnt, hstored, Iff.rfl, ?_⟩
  intro hs hal
  have hgood : res = .ok ∧ srv = 200 ∧ err = .ok := hs
  simp only [httpDownloadResultCallback, hgood, and_self, ↓reduceIte]
  rw [hdin hal]

/-- The length that a response gives is only reached with its last byte. -/
theorem received_all {r : Response} {rx : List UInt8} (hpre : rx <+: r.bytes)
    (hlen : r.contentLen = r.body.length) (hsmall : r.body.length < contentLenInvalid)
    (hv : verdict r rx = .ok) : rx = r.bytes := by
  have hle := hpre.length_le
  rw [Response.bytes, List.length_append] at hle
  have hcount : ¬ rx.length < r.head.length ∧ r.body.length = rx.length - r.head.length := by
    rw [verdict] at hv
    split_ifs at hv with hshort hcmp
    refine ⟨hshort, ?_⟩
    by_contra hne
    apply hcmp
    rw [hlen]
    have hmod : (rx.length - r.head.length) % 2 ^ 32 = rx.length - r.head.length := by
      apply Nat.mod_eq_of_lt
      simp only [contentLenInvalid] at hsmall
      omega
    exact ⟨by omega, by rwa [hmod]⟩
  apply hpre.eq_of_length
  rw [Response.bytes, List.length_append]
  omega

theorem separate_of_arrivals {text : List UInt8} {mem₀ : Memory} {h : List Call} {c : Conn}
    (hr : Reach (initial text mem₀) (Httpc.Step downloadCallbacks) h c)
    (hsep : ∀ l ∈ h, ∀ b ∈ arrivals l.event,
      b.payload + b.len ≤ pucBuffer ∨ pucBuffer + sizBuffer ≤ b.payload) :
    ∀ e ∈ callbacks (actsOf h), Separate pucBuffer sizBuffer e := by
  obtain ⟨hparts, -⟩ := ledger hr
  intro e he
  cases e with
  | result => trivial
  | data contents p err =>
    cases p with
    | none => trivial
    | some p =>
      intro b hb
      obtain ⟨act, hact, hcall⟩ := List.mem_filterMap.mp he
      have hrel : b ∈ release act := by
        cases act <;> simp only [callback?, Option.some.injEq, reduceCtorEq] at hcall
        subst hcall
        exact hb
      have hin : b ∈ released (actsOf h) ++ held c.req :=
        List.mem_append_left _ (List.mem_flatMap.mpr ⟨act, hact, hrel⟩)
      obtain ⟨b₀, hb₀, hle, hstop⟩ := hparts.exists_mem hin
      obtain ⟨l, hl, hb₀⟩ := List.mem_flatMap.mp hb₀
      have hapart := hsep l hl b₀ hb₀
      omega

/-- A download that the HTTP client made the callbacks of. It always comes to
its end with the client, and the buffer has what the server has sent of the
body. It is a success exactly if the status is good and the server has closed
the connection at the end of the response; then the buffer has all of the body
and the hash is the one of the body. -/
theorem download_reported (sha : ShaUnit) (r : Response) (mem : Memory) (hpos : 0 < pucBuffer)
    (hfits : pucBuffer + sizBuffer < 2 ^ 32) (hroom : r.body.length < sizBuffer) {text : List UInt8}
    {mem₀ : Memory} {h : List Call} {c : Conn}
    (hr : Reach (initial text mem₀) (Httpc.Step downloadCallbacks) h c) (hpre : Httpc.received h <+: r.bytes)
    (hend : c.req = none) (hsep : ∀ l ∈ h, ∀ b ∈ arrivals l.event,
      b.payload + b.len ≤ pucBuffer ∨ pucBuffer + sizBuffer ≤ b.payload) :
    ∃ hd d, Reach (· = initialDownload mem pucBuffer sizBuffer) (DownloadRuns.Step sha) hd d ∧
      hd.map Prod.fst = callbacks (actsOf h) ∧ (∀ l ∈ hd, l.2 = .ok) ∧ d.http.fIsFinished = 1 ∧
      d.http.pucCnt = pucBuffer + ((Httpc.received h).length - r.head.length) ∧
      Holds d.mem pucBuffer ((Httpc.received h).drop r.head.length) ∧
      (Successful d.http ↔ r.status = 200 ∧ verdict r (Httpc.received h) = .ok ∧
        ∃ pre l, h = pre ++ [l] ∧ Closed l.event) ∧
      (Successful d.http → (∀ e ∈ callbacks (actsOf h), Aligned e) →
        ∃ pad, IsPadding ((Httpc.received h).length - r.head.length) pad ∧
          d.http.tHash = sha.digest ((Httpc.received h).drop r.head.length ++ pad)) ∧
      (r.contentLen = r.body.length → Successful d.http → Httpc.received h = r.bytes) := by
  obtain ⟨hbody, -, hfin⟩ := runInv hr hpre
  have hsep := separate_of_arrivals hr hsep
  obtain ⟨pre, l, rfl, hends, hdata, hcalls⟩ := hfin hend
  obtain ⟨rx, hrx⟩ : ∃ rx, rx = Httpc.received (pre ++ [l]) := ⟨_, rfl⟩
  rw [← hrx] at hbody hcalls hpre ⊢
  obtain ⟨res, srv, err, hout, hsuccess⟩ := outcome_cases r rx hends l.answers
  have hcount : rx.length - r.head.length ≤ r.body.length := by
    have hle := hpre.length_le
    rw [Response.bytes, List.length_append] at hle
    omega
  have hmod : (rx.length - r.head.length) % 2 ^ 32 = rx.length - r.head.length :=
    Nat.mod_eq_of_lt (by omega)
  rw [hout, hmod] at hcalls
  rw [bodyOf, hcalls, List.flatMap_append, List.flatMap_singleton, delivered_result, List.append_nil] at hbody
  rw [hcalls, List.forall_mem_append] at hsep
  obtain ⟨hd, d, hrun, hes, hok, hdone, hcnt, hstored, hsucc, hhash⟩ :=
    exists_finished sha mem hpos hfits (callbacks (actsOf pre)) hdata hsep.1
      (by rw [hbody, List.length_drop]; omega) res (rx.length - r.head.length) srv err
  rw [hbody] at hcnt hstored hhash
  rw [List.length_drop] at hcnt
  have hlast : (∃ pre' l', pre ++ [l] = pre' ++ [l'] ∧ Closed l'.event) ↔ Closed l.event := by
    constructor
    · rintro ⟨pre', l', heq, hl'⟩
      obtain ⟨-, hl⟩ := List.append_inj' heq rfl
      obtain ⟨rfl, -⟩ := List.cons.inj hl
      exact hl'
    · exact fun hl => ⟨pre, l, rfl, hl⟩
  refine ⟨hd, d, hrun, hes.trans hcalls.symm, hok, hdone, hcnt, hstored, ?_, ?_, ?_⟩
  · rw [hlast]
    exact hsucc.trans hsuccess
  · intro hs hal
    rw [hcalls, List.forall_mem_append] at hal
    exact ⟨_, isPadding_finalizeByte (by omega), hhash hs hal.1⟩
  · intro hlen hs
    exact received_all hpre hlen (by simp only [contentLenInvalid]; omega) (hsuccess.mp (hsucc.mp hs)).2.1

/-- The example in a buffer of eight bytes. -/
theorem download_reported_example :
    ∃ hd d, Reach (· = initialDownload (fun _ => 0) 0x40000000 8) (DownloadRuns.Step exampleSha) hd d ∧
      d.http.pucCnt = 0x40000002 ∧ Holds d.mem 0x40000000 exampleResponse.body ∧ Successful d.http := by
  obtain ⟨h, c, hr, hevents, hgone⟩ := example_run ⟨.ok, .ok, .ok, .ok⟩
  have hrx : Httpc.received h = exampleResponse.bytes := by
    rw [received_eq, hevents]
    decide +kernel
  have hbody : exampleResponse.bytes.drop exampleResponse.head.length = exampleResponse.body :=
    List.drop_left
  have hapart : ∀ e ∈ exampleEvents, ∀ b ∈ arrivals e, b.payload + b.len ≤ 0x40000000 := by
    simp only [exampleEvents, List.forall_mem_cons, Httpc.arrivals, PbufChain.elements, examplePbuf]
    decide
  have hsep : ∀ l ∈ h, ∀ b ∈ arrivals l.event, b.payload + b.len ≤ 0x40000000 ∨ 0x40000000 + 8 ≤ b.payload := by
    intro l hl b hb
    exact .inl (hapart l.event (hevents ▸ List.mem_map_of_mem hl) b hb)
  obtain ⟨hd, d, hrun, -, -, -, hcnt, hstored, hsucc, -⟩ :=
    download_reported exampleSha exampleResponse (fun _ => 0) (by decide : 0 < 0x40000000) (by decide)
      (by decide : exampleResponse.body.length < 8) hr (hrx ▸ List.prefix_rfl) hgone hsep
  rw [hrx] at hcnt hstored hsucc
  rw [hbody] at hstored
  refine ⟨hd, d, hrun, ?_, hstored, hsucc.mpr ⟨rfl, by decide +kernel, ?_⟩⟩
  · rw [hcnt]
    decide +kernel
  · obtain ⟨pre, l, rfl⟩ : ∃ pre l, h = pre ++ [l] := by
      cases h using List.reverseRecOn with
      | nil => simp [exampleEvents] at hevents
      | append_singleton pre l => exact ⟨pre, l, rfl⟩
    refine ⟨pre, l, rfl, ?_⟩
    have hlast := congrArg List.getLast? hevents
    rw [List.map_append, List.map_singleton, List.getLast?_concat] at hlast
    rw [Option.some.inj hlast]
    trivial

end FlashApp.HttpcDownload
