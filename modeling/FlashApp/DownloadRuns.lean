import FlashApp.MainDownload
import FlashApp.Machine

namespace FlashApp.DownloadRuns

open Bytes Interaction Trace Sha384 Lwip HttpDownload Main MainDownload Machine

/-- What a callback delivers. A call with an error or without a chain has no
data. -/
def delivered : HttpEvent → List UInt8
  | .data contents (some p) .ok => payload contents p.elements
  | _ => []

/-- The memory after the data of an event got into its pbufs. -/
def arrived (m : Memory) : HttpEvent → Memory
  | .data contents (some p) _ => received m contents p
  | _ => m

/-- A callback of the HTTP client and what it returns; there is nothing to
return for the result callback. -/
def callback (sha : ShaUnit) (d : Download) : HttpEvent → Option (ErrT × Download)
  | .data contents p err =>
    httpDownloadDataCallback { d with mem := arrived d.mem (.data contents p err) } p err
  | .result httpcResult rxContentLen srvRes err =>
    some (.ok, httpDownloadResultCallback sha d httpcResult rxContentLen srvRes err)

abbrev Label := HttpEvent × ErrT

def Step (sha : ShaUnit) (d : Download) (l : Label) (d' : Download) : Prop :=
  callback sha d l.1 = some (l.2, d')

/-- The pbufs of a chain are not in the buffer of the download. -/
def Separate (pucBuffer sizBuffer : Nat) : HttpEvent → Prop
  | .data _ (some p) _ => ∀ b ∈ p.elements,
      b.payload + b.len ≤ pucBuffer ∨ pucBuffer + sizBuffer ≤ b.payload
  | _ => True

theorem payload_congr {m m' : Memory} {bs : List Pbuf}
    (h : ∀ b ∈ bs, ∀ a, b.payload ≤ a → a < b.payload + b.len → m a = m' a) :
    payload m bs = payload m' bs := by
  induction bs with
  | nil => rfl
  | cons b bs ih =>
    rw [List.forall_mem_cons] at h
    have hb := slice_congr (n := b.len) h.1
    have hbs := ih h.2
    simp only [payload, List.flatMap_cons] at hbs ⊢
    rw [hb, hbs]

theorem payload_memcpy (m : Memory) {dst src n : Nat} {bs : List Pbuf}
    (h : ∀ b ∈ bs, b.payload + b.len ≤ dst ∨ dst + n ≤ b.payload) :
    payload (memcpy m dst src n) bs = payload m bs := by
  apply payload_congr
  intro b hb a hlo hhi
  have hout := h b hb
  exact store_out m (by rw [length_slice]; omega)

/-- The loop over the elements writes to the buffer only, from its position
on, and puts the elements there one after the other. -/
theorem copyChain_stores (bs : List Pbuf) (stop : Nat) {s : CopyState} (hs : s.pucRec ≠ 0)
    (hstop : s.pucRec + s.sizBufLeft = stop) (hlt : stop < 2 ^ 32)
    (hsep : ∀ b ∈ bs, b.payload + b.len ≤ s.pucRec ∨ stop ≤ b.payload) :
    ∃ e s', copyChain bs s = some (e, s') ∧ s'.pucRec + s'.sizBufLeft = stop ∧ s.pucRec ≤ s'.pucRec ∧
      (∀ a, a < s.pucRec ∨ stop ≤ a → s'.mem a = s.mem a) ∧
      (e = .ok → s'.pucRec = s.pucRec + size bs ∧
        slice s'.mem s.pucRec (size bs) = payload s.mem bs) := by
  induction bs generalizing s with
  | nil => exact ⟨.ok, s, rfl, hstop, le_rfl, fun _ _ => rfl, fun _ => ⟨rfl, rfl⟩⟩
  | cons b bs ih =>
    obtain ⟨ws, hws⟩ := update_total s.mem b
    by_cases hfit : s.sizBufLeft > b.len
    · have hrec : add32 s.pucRec b.len = s.pucRec + b.len := add32_of_lt (by omega)
      rw [List.forall_mem_cons] at hsep
      obtain ⟨e, s', hs', hleft, hle, hout, hok⟩ := ih (s := { s with
        din := s.din ++ dinBytes ws
        mem := memcpy s.mem s.pucRec b.payload b.len
        pucRec := add32 s.pucRec b.len
        sizBufLeft := s.sizBufLeft - b.len }) (by simp only [hrec]; omega) (by simp only [hrec]; omega)
        (fun b' hb' => by
          have hb := hsep.2 b' hb'
          simp only [hrec]
          omega)
      simp only [hrec] at hle hout hok
      -- the copy of this element is not touched again
      have hcopy : slice s'.mem s.pucRec b.len = slice s.mem b.payload b.len := by
        have hstore := holds_store s.mem s.pucRec (slice s.mem b.payload b.len)
        rw [Holds, length_slice] at hstore
        rw [← hstore]
        exact slice_congr fun a _ ha => hout a (.inl ha)
      refine ⟨e, s', by simp [copyChain, hws, hs, hfit, hs'], hleft, by omega, ?_, ?_⟩
      · intro a ha
        rw [hout a (by omega)]
        exact store_out s.mem (by rw [length_slice]; omega)
      · intro he
        obtain ⟨hcnt, hdata⟩ := hok he
        refine ⟨by rw [hcnt, size_cons, Nat.add_assoc], ?_⟩
        have hrest : payload (memcpy s.mem s.pucRec b.payload b.len) bs = payload s.mem bs := by
          apply payload_memcpy
          intro b' hb'
          have hb := hsep.2 b' hb'
          omega
        rw [size_cons, slice_add, hcopy, hdata, hrest]
        rfl
    · refine ⟨.mem, { s with din := s.din ++ dinBytes ws }, by simp [copyChain, hws, hs, hfit], hstop,
        le_rfl, fun _ _ => rfl, fun h => ?_⟩
      cases h

theorem received_out {m contents : Memory} {p : PbufChain} {a : Nat}
    (h : ∀ b ∈ p.elements, a < b.payload ∨ b.payload + b.len ≤ a) : received m contents p a = m a := by
  rw [received, if_neg]
  intro hany
  obtain ⟨b, hb, hin⟩ := List.any_eq_true.mp hany
  have hin := of_decide_eq_true hin
  have hout := h b hb
  omega

theorem payload_received (m contents : Memory) (p : PbufChain) :
    payload (received m contents p) p.elements = payload contents p.elements := by
  apply payload_congr
  intro b hb a hlo hhi
  rw [received, if_pos]
  exact List.any_eq_true.mpr ⟨b, hb, decide_eq_true ⟨hlo, hhi⟩⟩

theorem arrived_congr {m m' : Memory} {a : Nat} (h : m a = m' a) (e : HttpEvent) :
    arrived m e a = arrived m' e a := by
  cases e with
  | data contents p err =>
    cases p with
    | none => exact h
    | some p => simp only [arrived, received, h]
  | result => exact h

/-- A buffer in which there is still a position to write to. -/
structure Buffer (pucBuffer sizBuffer : Nat) (h : HttpDownloadState) : Prop where
  start : h.pucStart = pucBuffer
  stop : h.pucEnd = pucBuffer + sizBuffer
  start_le : h.pucStart ≤ h.pucCnt
  cnt_le : h.pucCnt ≤ h.pucEnd

/-- What a callback can do: it leaves the memory in front of its position and
behind the buffer alone, and if it returns no error, it has stored the data. -/
structure Called (d : Download) (e : HttpEvent) (r : ErrT) (d' : Download) : Prop where
  start : d'.http.pucStart = d.http.pucStart
  stop : d'.http.pucEnd = d.http.pucEnd
  le_cnt : d.http.pucCnt ≤ d'.http.pucCnt
  cnt_le : d'.http.pucCnt ≤ d.http.pucEnd
  outside : ∀ a, a < d.http.pucCnt ∨ d.http.pucEnd ≤ a → d'.mem a = arrived d.mem e a
  stored : r = .ok → d'.http.pucCnt = d.http.pucCnt + (delivered e).length ∧
    slice d'.mem d.http.pucCnt (delivered e).length = delivered e

variable {sha : ShaUnit} {pucBuffer sizBuffer : Nat} {d d' : Download} {e : HttpEvent}

theorem delivered_nil {d' : Download} (hd : d.http.pucCnt ≤ d.http.pucEnd) (hmem : d'.mem = arrived d.mem e)
    (hhttp : d'.http.pucStart = d.http.pucStart ∧ d'.http.pucEnd = d.http.pucEnd ∧
      d'.http.pucCnt = d.http.pucCnt) (hno : delivered e = []) (r : ErrT) : Called d e r d' := by
  obtain ⟨hstart, hstop, hcnt⟩ := hhttp
  refine ⟨hstart, hstop, hcnt.ge, hcnt.trans_le hd, fun a _ => by rw [hmem], fun _ => ?_⟩
  rw [hno, hcnt]
  exact ⟨rfl, rfl⟩

theorem called_chain (sha : ShaUnit) (hd : Buffer pucBuffer sizBuffer d.http) (hpos : 0 < pucBuffer)
    (hfits : pucBuffer + sizBuffer < 2 ^ 32) {contents : Memory} {p : PbufChain}
    (hsep : Separate pucBuffer sizBuffer (.data contents (some p) .ok)) :
    ∃ r d', callback sha d (.data contents (some p) .ok) = some (r, d') ∧
      Called d (.data contents (some p) .ok) r d' := by
  obtain ⟨hstart, hstop, hle, hcnt⟩ := hd
  have hleft : sub32 d.http.pucEnd d.http.pucCnt = d.http.pucEnd - d.http.pucCnt :=
    sub32_of_le hcnt (by omega)
  obtain ⟨r, s, hs, hend, hrec, hout, hok⟩ := copyChain_stores p.elements d.http.pucEnd
    (s := ({ d with mem := received d.mem contents p } : Download).copyState)
    (by simp only [Download.copyState]; omega) (by simp only [Download.copyState, hleft]; omega) (by omega)
    (fun b hb => by
      have hb' := hsep b hb
      simp only [Download.copyState]
      omega)
  simp only [Download.copyState] at hrec hout hok
  refine ⟨r, ({ d with mem := received d.mem contents p } : Download).finishChain p s, ?_, ?_⟩
  · simp only [callback, httpDownloadDataCallback, arrived, ↓reduceIte, Option.bind_eq_bind]
    rw [hs]
    rfl
  · refine ⟨rfl, rfl, hrec, ?_, hout, ?_⟩
    · simp only [Download.finishChain]
      omega
    · intro hr
      obtain ⟨hpos', hdata⟩ := hok hr
      rw [payload_received] at hdata
      rw [delivered, length_payload]
      exact ⟨hpos', hdata⟩

theorem called (sha : ShaUnit) (hd : Buffer pucBuffer sizBuffer d.http) (hpos : 0 < pucBuffer)
    (hfits : pucBuffer + sizBuffer < 2 ^ 32) (hsep : Separate pucBuffer sizBuffer e) :
    ∃ r d', callback sha d e = some (r, d') ∧ Called d e r d' := by
  cases e with
  | data contents p err =>
    cases p with
    | none => exact ⟨.ok, d, rfl, delivered_nil hd.cnt_le rfl ⟨rfl, rfl, rfl⟩ rfl _⟩
    | some p =>
      by_cases herr : err = .ok
      · subst herr
        exact called_chain sha hd hpos hfits hsep
      · refine ⟨.ok, { d with mem := received d.mem contents p }, ?_, ?_⟩
        · simp [callback, httpDownloadDataCallback, herr, arrived]
        · refine delivered_nil hd.cnt_le ?_ ?_ ?_ .ok
          · rfl
          · exact ⟨rfl, rfl, rfl⟩
          · cases err <;> first | rfl | exact absurd rfl herr
  | result res len srv err =>
    refine ⟨.ok, _, rfl, delivered_nil hd.cnt_le ?_ ?_ rfl _⟩
    · simp only [httpDownloadResultCallback, arrived]
      split_ifs <;> rfl
    · simp only [httpDownloadResultCallback]
      split_ifs <;> exact ⟨rfl, rfl, rfl⟩

/-- The memory after the data of all events got into its pbufs. -/
def arrivals (m : Memory) (h : List Label) : Memory := (h.map Prod.fst).foldl arrived m

def body (h : List Label) : List UInt8 := h.flatMap fun l => delivered l.1

/-- The buffer of a download after the callbacks `h`. -/
structure Inv (mem : Memory) (pucBuffer sizBuffer : Nat) (h : List Label) (d : Download) : Prop where
  buffer : Buffer pucBuffer sizBuffer d.http
  outside : ∀ a, a < pucBuffer ∨ pucBuffer + sizBuffer ≤ a → d.mem a = arrivals mem h a
  stored : (∀ l ∈ h, l.2 = .ok) →
    d.http.pucCnt = pucBuffer + (body h).length ∧ slice d.mem pucBuffer (body h).length = body h

variable {mem : Memory} {h : List Label} {l : Label}

theorem inv_initial (hfits : pucBuffer + sizBuffer < 2 ^ 32) :
    Inv mem pucBuffer sizBuffer [] (initialDownload mem pucBuffer sizBuffer) where
  buffer := by
    refine ⟨rfl, add32_of_lt hfits, le_rfl, ?_⟩
    simp only [initialDownload, add32_of_lt hfits]
    omega
  outside _ _ := rfl
  stored _ := ⟨rfl, rfl⟩

theorem arrived_of_separate (hsep : Separate pucBuffer sizBuffer e) {m : Memory} {a : Nat}
    (ha : pucBuffer ≤ a ∧ a < pucBuffer + sizBuffer) : arrived m e a = m a := by
  cases e with
  | data contents p err =>
    cases p with
    | none => rfl
    | some p =>
      apply received_out
      intro b hb
      have hb' := hsep b hb
      omega
  | result => rfl

theorem Inv.step (hi : Inv mem pucBuffer sizBuffer h d) (hpos : 0 < pucBuffer)
    (hfits : pucBuffer + sizBuffer < 2 ^ 32) (hsep : Separate pucBuffer sizBuffer l.1)
    (hs : Step sha d l d') : Inv mem pucBuffer sizBuffer (h ++ [l]) d' := by
  obtain ⟨r, d'', hrun, hc⟩ := called sha hi.buffer hpos hfits hsep
  obtain ⟨rfl, rfl⟩ := Prod.mk.inj (Option.some.inj (hs.symm.trans hrun))
  obtain ⟨hstart, hstop, hle, hcnt⟩ := hi.buffer
  refine ⟨⟨?_, ?_, ?_, ?_⟩, ?_, ?_⟩
  · rw [hc.start, hstart]
  · rw [hc.stop, hstop]
  · rw [hc.start]
    exact hle.trans hc.le_cnt
  · rw [hc.stop]
    exact hc.cnt_le
  · intro a ha
    rw [hc.outside a (by omega), arrivals, List.map_append, List.foldl_append]
    exact arrived_congr (hi.outside a ha) l.1
  · intro hok
    rw [List.forall_mem_append, List.forall_mem_singleton] at hok
    obtain ⟨hcnt', hdata⟩ := hi.stored hok.1
    obtain ⟨hnew, hchunk⟩ := hc.stored hok.2
    have hbody : body (h ++ [l]) = body h ++ delivered l.1 := by simp [body]
    -- what was stored before is neither overwritten nor in a pbuf
    have hold : slice d'.mem pucBuffer (body h).length = slice d.mem pucBuffer (body h).length := by
      apply slice_congr
      intro a hlo hhi
      rw [hc.outside a (by omega)]
      exact arrived_of_separate hsep (by omega)
    rw [hbody, List.length_append]
    refine ⟨by omega, ?_⟩
    rw [slice_add, hold, hdata, ← hcnt', hchunk]

theorem reach_inv (hpos : 0 < pucBuffer) (hfits : pucBuffer + sizBuffer < 2 ^ 32)
    (hr : Reach (· = initialDownload mem pucBuffer sizBuffer) (Step sha) h d)
    (hsep : ∀ l ∈ h, Separate pucBuffer sizBuffer l.1) : Inv mem pucBuffer sizBuffer h d := by
  apply hr.invariant (fun h d => (∀ l ∈ h, Separate pucBuffer sizBuffer l.1) → Inv mem pucBuffer sizBuffer h d)
  · rintro d rfl -
    exact inv_initial hfits
  · intro h d l d' hi hs hsep
    rw [List.forall_mem_append, List.forall_mem_singleton] at hsep
    exact (hi hsep.1).step hpos hfits hsep.2 hs
  · exact hsep

section Polls

variable {t : List MainEvent}

theorem handleEvent_step (hr : Runs (handleEvent sha d e) t (some d')) :
    polls t = [] ∧ ∃ r, Step sha d (e, r) d' := by
  have hdata : ∀ {x : Option (ErrT × Download)}, x.map Prod.snd = some d' → ∃ r, x = some (r, d') := by
    intro x hx
    obtain ⟨⟨r, d''⟩, rfl, rfl⟩ := Option.map_eq_some_iff.mp hx
    exact ⟨r, rfl⟩
  cases e with
  | data contents p err =>
    cases p with
    | none =>
      obtain ⟨rfl, hmap⟩ := hr
      exact ⟨rfl, hdata hmap.symm⟩
    | some p =>
      obtain ⟨rfl, hmap⟩ := hr
      exact ⟨rfl, hdata hmap.symm⟩
  | result res len srv err =>
    by_cases hok : res = .ok ∧ srv = 200 ∧ err = .ok
    · simp only [handleEvent, hok, and_self, ↓reduceIte, runs_bind, runs_perform] at hr
      obtain ⟨_, _, _, rfl, rfl, rfl, hd⟩ := hr
      obtain rfl := Option.some.inj hd
      exact ⟨rfl, .ok, by simp [Step, callback, hok]⟩
    · simp only [handleEvent, hok, ↓reduceIte, runs_pure] at hr
      obtain ⟨rfl, hd⟩ := hr
      obtain rfl := Option.some.inj hd
      exact ⟨rfl, .ok, rfl⟩

theorem handleEvents_reach {es : List HttpEvent} (hr : Runs (handleEvents sha es d) t (some d')) :
    polls t = [] ∧ ∃ h, Reach (· = d) (Step sha) h d' ∧ h.map Prod.fst = es := by
  induction es generalizing d t with
  | nil =>
    obtain ⟨rfl, hd⟩ := hr
    obtain rfl := Option.some.inj hd
    exact ⟨rfl, [], .init rfl, rfl⟩
  | cons e es ih =>
    rw [handleEvents, runs_bind] at hr
    obtain ⟨x, t₁, t₂, rfl, h₁, h₂⟩ := hr
    cases x with
    | none =>
      obtain ⟨-, hx⟩ := h₂
      cases hx
    | some d₁ =>
      obtain ⟨hp₁, r, hs⟩ := handleEvent_step h₁
      obtain ⟨hp₂, h, hreach, hes⟩ := ih h₂
      refine ⟨by rw [polls_append, hp₁, hp₂]; rfl, (e, r) :: h, ?_, by rw [List.map_cons, hes]⟩
      exact (Reach.single hs).trans hreach

theorem poll_reach (hr : Runs (pollDownload sha d) t (.inl d')) :
    ∃ es h, polls t = [es] ∧ Reach (· = d) (Step sha) h d' ∧ h.map Prod.fst = es := by
  by_cases hf : d.http.fIsFinished = 0
  · simp only [pollDownload, hf, ↓reduceIte, runs_bind, runs_perform] at hr
    obtain ⟨es, _, _, rfl, rfl, x, t₁, t₂, rfl, h₁, h₂⟩ := hr
    cases x with
    | none =>
      obtain ⟨-, hx⟩ := h₂
      cases hx
    | some d₁ =>
      obtain ⟨rfl, hx⟩ := h₂
      obtain rfl := Sum.inl.inj hx
      obtain ⟨hp, h, hreach, hes⟩ := handleEvents_reach h₁
      refine ⟨es, h, ?_, hreach, hes⟩
      rw [polls_append, List.append_nil, hp]
      rfl
  · simp only [pollDownload, hf, ↓reduceIte] at hr
    obtain ⟨-, hx⟩ := hr
    cases hx

theorem poll_done (hr : Runs (pollDownload sha d) t (.inr (some d'))) : t = [] ∧ d' = d := by
  by_cases hf : d.http.fIsFinished = 0
  · simp only [pollDownload, hf, ↓reduceIte, runs_bind, runs_perform] at hr
    obtain ⟨es, _, _, rfl, rfl, x, t₁, t₂, rfl, h₁, h₂⟩ := hr
    cases x with
    | none | some d₁ =>
      obtain ⟨-, hx⟩ := h₂
      cases hx
  · simp only [pollDownload, hf, ↓reduceIte] at hr
    obtain ⟨rfl, hx⟩ := hr
    exact ⟨rfl, Option.some.inj (Sum.inr.inj hx)⟩

theorem wait_reach {n : Nat} (hr : Runs (loop (pollDownload sha) n d) t (some (some d'))) :
    ∃ h, Reach (· = d) (Step sha) h d' ∧ h.map Prod.fst = (polls t).flatten := by
  induction n generalizing d t with
  | zero =>
    obtain ⟨-, hx⟩ := hr
    cases hx
  | succ n ih =>
    rcases runs_loop_succ.mp hr with ⟨d₁, t₁, t₂, rfl, h₁, h₂⟩ | ⟨b, hb, h₁⟩
    · obtain ⟨es, h, hp, hreach, hes⟩ := poll_reach h₁
      obtain ⟨h', hreach', hes'⟩ := ih h₂
      refine ⟨h ++ h', hreach.trans hreach', ?_⟩
      rw [List.map_append, hes, hes', polls_append, hp]
      rfl
    · obtain rfl := Option.some.inj hb
      obtain ⟨rfl, rfl⟩ := poll_done h₁
      exact ⟨[], .init rfl, rfl⟩

theorem httpDownload_reach {uri : Uri} {n size : Nat} {mem' : Memory} {tHash : List UInt8}
    (hr : Runs (httpDownload sha mem uri pucBuffer sizBuffer n) t (some (mem', some (size, tHash)))) :
    ∃ h d, Reach (· = initialDownload mem pucBuffer sizBuffer) (Step sha) h d ∧
      h.map Prod.fst = (polls t).flatten ∧ mem' = d.mem ∧ size = sub32 d.http.pucCnt d.http.pucStart := by
  simp only [httpDownload, runs_bind, runs_perform] at hr
  obtain ⟨time, _, _, rfl, rfl, tResult, _, t₁, rfl, rfl, hr⟩ := hr
  by_cases hget : tResult = .ok
  · subst tResult
    simp only [↓reduceIte, runs_bind] at hr
    obtain ⟨x, t₂, t₃, rfl, hwait, hr⟩ := hr
    obtain _ | _ | d := x
    · obtain ⟨-, hx⟩ := hr
      cases hx
    · obtain ⟨-, hx⟩ := hr
      cases hx
    · obtain ⟨h, hreach, hes⟩ := wait_reach hwait
      simp only [runs_bind, runs_perform] at hr
      obtain ⟨time', _, _, rfl, rfl, _, _, t₄, rfl, rfl, hr⟩ := hr
      split_ifs at hr with hok
      · obtain ⟨rfl, hx⟩ := hr
        simp only [Option.some.injEq, Prod.mk.injEq] at hx
        obtain ⟨rfl, rfl, rfl⟩ := hx
        refine ⟨h, d, hreach, ?_, rfl, rfl⟩
        simp only [hes, polls_append, List.flatten_append]
        simp [polls, List.filterMap_cons, polled]
      · obtain ⟨-, hx⟩ := hr
        cases hx
  · simp only [hget, ↓reduceIte, runs_pure] at hr
    obtain ⟨-, hx⟩ := hr
    cases hx

end Polls

/-- The calls that have data for the buffer. -/
def Delivers (e : HttpEvent) : Prop := ∃ contents p, e = .data contents (some p) .ok

theorem step_ok_iff (hd : Buffer pucBuffer sizBuffer d.http) (hpos : 0 < pucBuffer)
    (hfits : pucBuffer + sizBuffer < 2 ^ 32) (hs : Step sha d l d') (hl : Delivers l.1) :
    l.2 = .ok ↔ (delivered l.1).length < d.http.pucEnd - d.http.pucCnt := by
  obtain ⟨e, r⟩ := l
  obtain ⟨contents, p, rfl⟩ := hl
  obtain ⟨hstart, hstop, hle, hcnt⟩ := hd
  obtain ⟨r', d'', hrun, -, -, -, hok⟩ :=
    dataCallback_cases (d := { d with mem := received d.mem contents p }) ⟨hle, hcnt, by simp only; omega⟩ p
  obtain ⟨rfl, rfl⟩ := Prod.mk.inj (Option.some.inj (hs.symm.trans hrun))
  rw [hok, delivered, length_payload]
  have hnull : d.http.pucCnt ≠ 0 := by omega
  simp only [hnull, false_or]

/-- For a buffer that is not at the null pointer and does not reach the end of
the address space: the callbacks always return, each state has its position in
the buffer, nothing else was written than the buffer and the pbufs, and after
callbacks without an error the buffer holds all data in order. A successful
download reports the length of it. -/
theorem download_stored (sha : ShaUnit) (mem : Memory) {pucBuffer sizBuffer : Nat} (hpos : 0 < pucBuffer)
    (hfits : pucBuffer + sizBuffer < 2 ^ 32) :
    (∀ h d, Reach (· = initialDownload mem pucBuffer sizBuffer) (Step sha) h d →
      (∀ l ∈ h, Separate pucBuffer sizBuffer l.1) →
        Inv mem pucBuffer sizBuffer h d ∧
        ∀ e, Separate pucBuffer sizBuffer e → ∃ r d', Step sha d (e, r) d') ∧
    ∀ uri n t mem' size tHash,
      Runs (httpDownload sha mem uri pucBuffer sizBuffer n) t (some (mem', some (size, tHash))) →
      (∀ e ∈ (polls t).flatten, Separate pucBuffer sizBuffer e) →
      ∃ h d, Reach (· = initialDownload mem pucBuffer sizBuffer) (Step sha) h d ∧
        h.map Prod.fst = (polls t).flatten ∧ mem' = d.mem ∧
        size = d.http.pucCnt - d.http.pucStart ∧
        ((∀ l ∈ h, l.2 = .ok) → size = (body h).length ∧ slice mem' pucBuffer size = body h) := by
  constructor
  · intro h d hr hsep
    have hi := reach_inv hpos hfits hr hsep
    refine ⟨hi, ?_⟩
    intro e he
    obtain ⟨r, d', hrun, -⟩ := called sha hi.buffer hpos hfits he
    exact ⟨r, d', hrun⟩
  · intro uri n t mem' size tHash hrun hsep
    obtain ⟨h, d, hr, hes, rfl, rfl⟩ := httpDownload_reach hrun
    have hi := reach_inv hpos hfits hr (fun l hl => hsep l.1 (hes ▸ List.mem_map_of_mem hl))
    obtain ⟨hstart, hstop, hle, hcnt⟩ := hi.buffer
    rw [sub32_of_le hle (by omega)]
    refine ⟨h, d, hr, hes, rfl, rfl, ?_⟩
    intro hok
    obtain ⟨hall, hdata⟩ := hi.stored hok
    have hlen : d.http.pucCnt - d.http.pucStart = (body h).length := by omega
    exact ⟨hlen, by rwa [hlen]⟩

def exampleSha : ShaUnit := ⟨fun _ => List.replicate 48 0, fun _ => List.length_replicate⟩

def exampleChunk (len : Fin (2 ^ 16)) : HttpEvent :=
  .data (fun a => UInt8.ofNat a) (some (oneElement len len.isLt)) .ok

theorem exampleChunk_separate (len : Fin (2 ^ 16)) : Separate 0x40000000 8 (exampleChunk len) := by
  intro b hb
  obtain rfl := List.mem_singleton.mp hb
  have hpayload : 0x04080000 + len.val ≤ 0x40000000 := by omega
  exact .inl hpayload

/-- One more chain for a buffer of eight bytes. -/
theorem exampleChunk_step (hr : Reach (· = initialDownload (fun _ => 0) 0x40000000 8) (Step exampleSha) h d)
    (hsep : ∀ l ∈ h, Separate 0x40000000 8 l.1) (hall : ∀ l ∈ h, l.2 = .ok) (len : Fin (2 ^ 16)) :
    ∃ r d', Step exampleSha d (exampleChunk len, r) d' ∧ (r = .ok ↔ (body h).length + len < 8) := by
  have hi := reach_inv (by decide) (by decide) hr hsep
  obtain ⟨hcnt, -⟩ := hi.stored hall
  obtain ⟨r, d', hs, -⟩ := called exampleSha hi.buffer (by decide) (by decide) (exampleChunk_separate len)
  have hstep : Step exampleSha d (exampleChunk len, r) d' := hs
  have hlen : (delivered (exampleChunk len)).length = len := by
    rw [exampleChunk, delivered, length_payload]
    exact Nat.add_zero _
  refine ⟨r, d', hstep, ?_⟩
  rw [step_ok_iff hi.buffer (by decide) (by decide) hstep ⟨_, _, rfl⟩, hlen]
  obtain ⟨hstart, hstop, -, -⟩ := hi.buffer
  omega

/-- Two chains that leave one byte of the buffer. -/
def exampleCalls : List Label := [(exampleChunk 4, .ok), (exampleChunk 3, .ok)]

theorem exampleCalls_separate : ∀ l ∈ exampleCalls, Separate 0x40000000 8 l.1 := by
  rw [exampleCalls, List.forall_mem_cons, List.forall_mem_singleton]
  exact ⟨exampleChunk_separate 4, exampleChunk_separate 3⟩

theorem exampleCalls_ok : ∀ l ∈ exampleCalls, l.2 = .ok := by
  rw [exampleCalls, List.forall_mem_cons, List.forall_mem_singleton]
  exact ⟨rfl, rfl⟩

theorem exampleCalls_reach :
    ∃ d, Reach (· = initialDownload (fun _ => 0) 0x40000000 8) (Step exampleSha) exampleCalls d := by
  obtain ⟨r, d, hs, hok⟩ := exampleChunk_step (.init rfl) (by simp) (by simp) 4
  obtain rfl := hok.mpr (by decide)
  have hr := Reach.single hs
  obtain ⟨r', d', hs', hok'⟩ := exampleChunk_step hr (by simpa using exampleChunk_separate 4) (by simp) 3
  obtain rfl := hok'.mpr (by decide)
  exact ⟨d', hr.step hs'⟩

theorem download_stored_exampleCalls :
    ∃ d, Reach (· = initialDownload (fun _ => 0) 0x40000000 8) (Step exampleSha) exampleCalls d ∧
      slice d.mem 0x40000000 7 = [0, 1, 2, 3, 0, 1, 2] := by
  obtain ⟨d, hr⟩ := exampleCalls_reach
  obtain ⟨hrun, -⟩ := download_stored exampleSha (fun _ => 0) (by decide : 0 < 0x40000000)
    (by decide : 0x40000000 + 8 < 2 ^ 32)
  obtain ⟨hi, -⟩ := hrun _ d hr exampleCalls_separate
  exact ⟨d, hr, (hi.stored exampleCalls_ok).2⟩

section Full

theorem step_ok_of_not_delivers (hs : Step sha d l d') (hl : ¬ Delivers l.1) : l.2 = .ok := by
  obtain ⟨e, r⟩ := l
  cases e with
  | data contents p err =>
    cases p with
    | none =>
      obtain ⟨rfl, -⟩ := Prod.mk.inj (Option.some.inj hs)
      rfl
    | some p =>
      have herr : err ≠ .ok := by
        rintro rfl
        exact hl ⟨contents, p, rfl⟩
      simp only [Step, callback, httpDownloadDataCallback, herr, ↓reduceIte, Option.some.injEq,
        Prod.mk.injEq] at hs
      exact hs.1.symm
  | result =>
    obtain ⟨rfl, -⟩ := Prod.mk.inj (Option.some.inj hs)
    rfl

theorem step_unique : ∀ (d : Download) (l : Label) (d₁ d₂ : Download),
    Step sha d l d₁ → Step sha d l d₂ → d₁ = d₂ := by
  intro d l d₁ d₂ h₁ h₂
  exact (Prod.mk.inj (Option.some.inj (h₁.symm.trans h₂))).2

/-- After the callbacks `h` the call `l` returns an error exactly if the data
received so far does not fit. -/
def ErrorIfFull (sizBuffer : Nat) (h : List Label) (l : Label) : Prop :=
  Delivers l.1 → (l.2 ≠ .ok ↔ sizBuffer < (body h).length + (delivered l.1).length)

/-- What a download should do with its buffer: an error means that the data
does not fit, and data that fits is stored. -/
structure UsesBuffer (pucBuffer sizBuffer : Nat) (h : List Label) (d : Download) : Prop where
  error_iff : Always (ErrorIfFull sizBuffer) h
  stored : (body h).length ≤ sizBuffer → (∀ l ∈ h, l.2 = .ok) ∧
    d.http.pucCnt = pucBuffer + (body h).length ∧ slice d.mem pucBuffer (body h).length = body h

/-- The data of the call `l` after the callbacks `h` does not fill the buffer
up to its last byte. When already more was received than fits, it is at least
as long as the space left. -/
def NotFilled (sha : ShaUnit) (mem : Memory) (pucBuffer sizBuffer : Nat) (h : List Label) (l : Label) : Prop :=
  Delivers l.1 → (body h).length + (delivered l.1).length ≠ sizBuffer ∧
    ∀ d, Reach (· = initialDownload mem pucBuffer sizBuffer) (Step sha) h d → sizBuffer < (body h).length →
      d.http.pucEnd - d.http.pucCnt ≤ (delivered l.1).length

theorem body_append (h h' : List Label) : body (h ++ h') = body h ++ body h' := List.flatMap_append

theorem body_singleton (l : Label) : body [l] = delivered l.1 := List.flatMap_singleton _ _

/-- As long as errors are right, the first one means that more was received
than fits. -/
theorem all_ok_or_full (hd : Reach (· = initialDownload mem pucBuffer sizBuffer) (Step sha) h d)
    (herr : Always (ErrorIfFull sizBuffer) h) : (∀ l ∈ h, l.2 = .ok) ∨ sizBuffer < (body h).length := by
  induction hd with
  | init hs => exact .inl (by simp)
  | @step h d d' l _ hs ih =>
    rw [always_append, always_singleton, List.append_nil] at herr
    have hbody : (body (h ++ [l])).length = (body h).length + (delivered l.1).length := by
      rw [body_append, body_singleton, List.length_append]
    obtain hok | hfull := ih herr.1
    · by_cases hl : l.2 = .ok
      · refine .inl ?_
        rw [List.forall_mem_append, List.forall_mem_singleton]
        exact ⟨hok, hl⟩
      · have hdel : Delivers l.1 := by
          by_contra hno
          exact hl (step_ok_of_not_delivers hs hno)
        have hfull := (herr.2 hdel).mp hl
        exact .inr (by omega)
    · exact .inr (by omega)

theorem errorIfFull_iff (hpos : 0 < pucBuffer) (hfits : pucBuffer + sizBuffer < 2 ^ 32)
    (hd : Reach (· = initialDownload mem pucBuffer sizBuffer) (Step sha) h d)
    (hsep : ∀ l ∈ h, Separate pucBuffer sizBuffer l.1) (herr : Always (ErrorIfFull sizBuffer) h)
    (hs : Step sha d l d') : ErrorIfFull sizBuffer h l ↔ NotFilled sha mem pucBuffer sizBuffer h l := by
  have hi := reach_inv hpos hfits hd hsep
  obtain ⟨hstart, hstop, hle, hcnt⟩ := hi.buffer
  have hself : (∀ d₁, Reach (· = initialDownload mem pucBuffer sizBuffer) (Step sha) h d₁ →
      sizBuffer < (body h).length → d₁.http.pucEnd - d₁.http.pucCnt ≤ (delivered l.1).length) ↔
      (sizBuffer < (body h).length → d.http.pucEnd - d.http.pucCnt ≤ (delivered l.1).length) := by
    constructor
    · exact fun hall => hall d hd
    · intro hthis d₁ hd₁
      obtain rfl := hd.unique (fun s s' h h' => h.trans h'.symm) step_unique hd₁
      exact hthis
  unfold ErrorIfFull NotFilled
  apply imp_congr_right
  intro hdel
  have hok := step_ok_iff hi.buffer hpos hfits hs hdel
  rw [hself, ne_eq, hok, not_lt]
  obtain hall | hfull := all_ok_or_full hd herr
  · obtain ⟨hpos', -⟩ := hi.stored hall
    omega
  · omega

theorem always_errorIfFull_iff (hpos : 0 < pucBuffer) (hfits : pucBuffer + sizBuffer < 2 ^ 32)
    (hd : Reach (· = initialDownload mem pucBuffer sizBuffer) (Step sha) h d)
    (hsep : ∀ l ∈ h, Separate pucBuffer sizBuffer l.1) :
    Always (ErrorIfFull sizBuffer) h ↔ Always (NotFilled sha mem pucBuffer sizBuffer) h := by
  induction hd with
  | init hs => exact iff_of_true (always_nil _) (always_nil _)
  | @step h d d' l hd hs ih =>
    rw [List.forall_mem_append] at hsep
    simp only [always_append, always_singleton, List.append_nil]
    rw [← ih hsep.1]
    apply and_congr_right
    intro herr
    exact errorIfFull_iff hpos hfits hd hsep.1 herr hs

end Full

/-- A download does with its buffer what it should exactly if no call fills
the buffer up to its last byte, and none that would fit comes after more data
than fits. -/
theorem usesBuffer_iff (sha : ShaUnit) (mem : Memory) {pucBuffer sizBuffer : Nat} (hpos : 0 < pucBuffer)
    (hfits : pucBuffer + sizBuffer < 2 ^ 32) {h : List Label} {d : Download}
    (hr : Reach (· = initialDownload mem pucBuffer sizBuffer) (Step sha) h d)
    (hsep : ∀ l ∈ h, Separate pucBuffer sizBuffer l.1) :
    UsesBuffer pucBuffer sizBuffer h d ↔ Always (NotFilled sha mem pucBuffer sizBuffer) h := by
  rw [← always_errorIfFull_iff hpos hfits hr hsep]
  constructor
  · exact UsesBuffer.error_iff
  · intro herr
    refine ⟨herr, ?_⟩
    intro hfit
    have hall : ∀ l ∈ h, l.2 = .ok := (all_ok_or_full hr herr).resolve_right (by omega)
    exact ⟨hall, (reach_inv hpos hfits hr hsep).stored hall⟩

theorem usesBuffer_iff_exampleCalls :
    ∃ d, Reach (· = initialDownload (fun _ => 0) 0x40000000 8) (Step exampleSha) exampleCalls d ∧
      UsesBuffer 0x40000000 8 exampleCalls d := by
  obtain ⟨d, hr⟩ := exampleCalls_reach
  refine ⟨d, hr, ?_⟩
  apply (usesBuffer_iff exampleSha (fun _ => 0) (by decide) (by decide) hr exampleCalls_separate).mpr
  rw [exampleCalls, always_cons, always_singleton]
  exact ⟨fun _ => ⟨by decide, fun _ _ hfull => absurd hfull (by decide)⟩,
    fun _ => ⟨by decide, fun _ _ hfull => absurd hfull (by decide)⟩⟩

/-- Data that fills the buffer up to its last byte is refused. -/
theorem full_buffer_refused :
    ¬ ∀ (sha : ShaUnit) (mem : Memory) (pucBuffer sizBuffer : Nat) (h : List Label) (d : Download),
      0 < pucBuffer → pucBuffer + sizBuffer < 2 ^ 32 →
      Reach (· = initialDownload mem pucBuffer sizBuffer) (Step sha) h d →
      (∀ l ∈ h, Separate pucBuffer sizBuffer l.1) → UsesBuffer pucBuffer sizBuffer h d := by
  intro hall
  obtain ⟨r, d, hs, hok⟩ := exampleChunk_step (.init rfl) (by simp) (by simp) 8
  have huses := hall exampleSha (fun _ => 0) 0x40000000 8 _ d (by decide) (by decide) (.single hs)
    (by simpa using exampleChunk_separate 8)
  have hlen : (body [(exampleChunk 8, r)]).length = 8 := by
    rw [body_singleton, exampleChunk, delivered, length_payload]
    rfl
  have hr : r = .ok := (huses.stored hlen.le).1 _ (List.mem_singleton_self _)
  exact absurd (hok.mp hr) (by decide)

end FlashApp.DownloadRuns
