import FlashApp.Main

namespace FlashApp.MainDownload

open Bytes Interaction Trace Sha384 Lwip HttpDownload Fdl InfoFile Main

def finalized : MainEvent → Option (List UInt8)
  | ⟨.note (.finalized tHash), _⟩ => some tHash
  | _ => none

def downloaded : MainEvent → Option (HttpcResult × Nat × ErrT)
  | ⟨.note (.httpDownload tHttpcResult ulServerResponse tResult), _⟩ =>
    some (tHttpcResult, ulServerResponse, tResult)
  | _ => none

def polled : MainEvent → Option (List HttpEvent)
  | ⟨.networkCyclicProcess, es⟩ => some es
  | _ => none

def downloads (t : List MainEvent) : List (HttpcResult × Nat × ErrT) := t.filterMap downloaded

def polls (t : List MainEvent) : List (List HttpEvent) := t.filterMap polled

def IsResult : HttpEvent → Prop
  | .data _ _ _ => False
  | .result _ _ _ _ => True

/-- The HTTP client reports the result of every transfer that it has started,
and does so in less than `n` polls. -/
def Answered (n : Nat) (t : List MainEvent) : Prop :=
  ∀ pre uri post, t = pre ++ ⟨.httpcGetFile uri, .ok⟩ :: post →
    ∃ es ∈ (polls post).take (n - 1), ∃ e ∈ es, IsResult e

theorem downloads_append (s t : List MainEvent) : downloads (s ++ t) = downloads s ++ downloads t :=
  List.filterMap_append

theorem polls_append (s t : List MainEvent) : polls (s ++ t) = polls s ++ polls t :=
  List.filterMap_append

theorem Answered.right {n : Nat} {s t : List MainEvent} (h : Answered n (s ++ t)) :
    Answered n t := by
  rintro pre uri post rfl
  exact h (s ++ pre) uri post (by rw [List.append_assoc])

theorem Answered.append {n : Nat} {s t : List MainEvent} (hs : ∀ uri, ⟨.httpcGetFile uri, .ok⟩ ∉ s)
    (ht : Answered n t) : Answered n (s ++ t) := by
  intro pre uri post h
  obtain he | ⟨pre', rfl⟩ := split_append h
  · exact absurd he (hs uri)
  · exact ht pre' uri post rfl

theorem Answered.start {n : Nat} {t : List MainEvent} (uri : Uri) (ht : Answered n t)
    (hres : ∃ es ∈ (polls t).take (n - 1), ∃ e ∈ es, IsResult e) :
    Answered n (⟨.httpcGetFile uri, .ok⟩ :: t) := by
  intro pre uri' post h
  cases pre with
  | nil =>
    obtain ⟨-, rfl⟩ := List.cons.inj h
    exact hres
  | cons d pre =>
    obtain ⟨-, rfl⟩ := List.cons.inj h
    exact ht pre uri' post rfl

def Successful (h : HttpDownloadState) : Prop :=
  h.tHttpcResult = .ok ∧ h.ulServerResponse = 200 ∧ h.tResult = .ok

instance (h : HttpDownloadState) : Decidable (Successful h) :=
  inferInstanceAs (Decidable (_ ∧ _ ∧ _))

/-- What the callbacks keep in a download with the events `h` so far. -/
structure Inv (pucBuffer sizBuffer : Nat) (d : Download) (h : List MainEvent) : Prop where
  valid : d.http.Valid
  start : d.http.pucStart = pucBuffer
  stop : d.http.pucEnd = pucBuffer + sizBuffer
  hash : Successful d.http → last finalized h = some d.http.tHash
  length : d.http.tHash.length = 48
  running : downloads h = []

theorem inv_initial {pucBuffer sizBuffer : Nat} (hfits : pucBuffer + sizBuffer < 2 ^ 32)
    (mem : Memory) : Inv pucBuffer sizBuffer (initialDownload mem pucBuffer sizBuffer) [] where
  valid := by
    refine ⟨le_rfl, ?_, add32_lt _ _⟩
    simp only [initialDownload, add32_of_lt hfits]
    omega
  start := rfl
  stop := add32_of_lt hfits
  hash h := absurd h.2.1 (by simp [initialDownload])
  length := by simp [initialDownload]
  running := rfl

theorem dataCallback_http {d d' : Download} {p : Option PbufChain} {err e : ErrT}
    (h : httpDownloadDataCallback d p err = some (e, d')) :
    d'.http = { d.http with pucCnt := d'.http.pucCnt } := by
  cases p with
  | none =>
    obtain ⟨-, rfl⟩ := Prod.mk.inj (Option.some.inj h)
    rfl
  | some p =>
    by_cases herr : err = .ok
    · simp only [httpDownloadDataCallback, herr, ↓reduceIte, Option.bind_eq_bind,
        Option.bind_eq_some_iff, Option.pure_def, Option.some.injEq, Prod.mk.injEq] at h
      obtain ⟨⟨_, s⟩, -, -, rfl⟩ := h
      rfl
    · simp only [httpDownloadDataCallback, herr, ↓reduceIte, Option.some.injEq,
        Prod.mk.injEq] at h
      obtain ⟨-, rfl⟩ := h
      rfl

theorem dataCallback_total {d : Download} (hd : d.http.Valid) (p : Option PbufChain) (err : ErrT) :
    ∃ e d', httpDownloadDataCallback d p err = some (e, d') ∧ d'.http.Valid := by
  cases p with
  | none => exact ⟨.ok, d, rfl, hd⟩
  | some p =>
    by_cases herr : err = .ok
    · obtain ⟨e, d', hrun, hd', -⟩ := dataCallback_cases hd p
      exact ⟨e, d', by rw [herr, hrun], hd'⟩
    · exact ⟨.ok, d, by simp [httpDownloadDataCallback, herr], hd⟩

section Callbacks

variable {sha : ShaUnit} {pucBuffer sizBuffer : Nat} {d : Download} {h t : List MainEvent}

theorem inv_data (hd : Inv pucBuffer sizBuffer d h) (d₀ : Download) (h₀ : d₀.http = d.http)
    (p : Option PbufChain) (err : ErrT) :
    ∃ d', (httpDownloadDataCallback d₀ p err).map Prod.snd = some d' ∧
      Inv pucBuffer sizBuffer d' h ∧ d'.http.fIsFinished = d.http.fIsFinished := by
  obtain ⟨e, d', hrun, hv⟩ := dataCallback_total (d := d₀) (h₀ ▸ hd.valid) p err
  have hhttp := dataCallback_http hrun
  rw [h₀] at hhttp
  refine ⟨d', by rw [hrun]; rfl, ⟨hv, ?_, ?_, ?_, ?_, hd.running⟩, by rw [hhttp]⟩
  · rw [hhttp]
    exact hd.start
  · rw [hhttp]
    exact hd.stop
  · rw [hhttp]
    exact hd.hash
  · rw [hhttp]
    exact hd.length

theorem handleEvent_cases (hd : Inv pucBuffer sizBuffer d h) {e : HttpEvent}
    {r : Option Download} (hr : Runs (handleEvent sha d e) t r) :
    ∃ d', r = some d' ∧ Inv pucBuffer sizBuffer d' (h ++ t) ∧ polls t = [] ∧
      (IsResult e ∨ d.http.fIsFinished ≠ 0 → d'.http.fIsFinished ≠ 0) := by
  cases e with
  | data contents p err =>
    have hfinish : ∀ d' : Download, d'.http.fIsFinished = d.http.fIsFinished →
        IsResult (.data contents p err) ∨ d.http.fIsFinished ≠ 0 → d'.http.fIsFinished ≠ 0 := by
      rintro d' hf (he | he)
      · exact he.elim
      · rwa [hf]
    cases p with
    | none =>
      obtain ⟨rfl, rfl⟩ := hr
      obtain ⟨d', hd', hi, hf⟩ := inv_data hd d rfl none err
      exact ⟨d', hd', by rwa [List.append_nil], rfl, hfinish d' hf⟩
    | some p =>
      obtain ⟨rfl, rfl⟩ := hr
      obtain ⟨d', hd', hi, hf⟩ :=
        inv_data hd { d with mem := received d.mem contents p } rfl (some p) err
      exact ⟨d', hd', by rwa [List.append_nil], rfl, hfinish d' hf⟩
  | result res len srv err =>
    by_cases hok : res = .ok ∧ srv = 200 ∧ err = .ok
    · simp only [handleEvent, hok, and_self, ↓reduceIte, runs_bind, runs_perform] at hr
      obtain ⟨_, _, _, rfl, rfl, rfl, rfl⟩ := hr
      refine ⟨_, rfl, ⟨?_, ?_, ?_, ?_, ?_, ?_⟩, rfl, fun _ => ?_⟩
      · exact ⟨hd.valid.start_le, hd.valid.cnt_le, hd.valid.end_lt⟩
      · exact hd.start
      · exact hd.stop
      · intro _
        exact last_append_some h rfl
      · exact sha.length_digest _
      · rw [downloads_append, hd.running]
        rfl
      · simp [httpDownloadResultCallback]
    · simp only [handleEvent, hok, ↓reduceIte, runs_pure] at hr
      obtain ⟨rfl, rfl⟩ := hr
      refine ⟨_, rfl, ⟨?_, ?_, ?_, ?_, ?_, ?_⟩, rfl, fun _ => ?_⟩
      all_goals simp only [httpDownloadResultCallback, hok, ↓reduceIte, List.append_nil]
      · exact ⟨hd.valid.start_le, hd.valid.cnt_le, hd.valid.end_lt⟩
      · exact hd.start
      · exact hd.stop
      · intro hs
        exact absurd hs hok
      · exact hd.length
      · exact hd.running
      · decide

theorem handleEvents_cases {es : List HttpEvent} {r : Option Download}
    (hd : Inv pucBuffer sizBuffer d h) (hr : Runs (handleEvents sha es d) t r) :
    ∃ d', r = some d' ∧ Inv pucBuffer sizBuffer d' (h ++ t) ∧ polls t = [] ∧
      ((∃ e ∈ es, IsResult e) ∨ d.http.fIsFinished ≠ 0 → d'.http.fIsFinished ≠ 0) := by
  induction es generalizing d h t with
  | nil =>
    obtain ⟨rfl, rfl⟩ := hr
    exact ⟨d, rfl, by rwa [List.append_nil], rfl, by simp⟩
  | cons e es ih =>
    rw [handleEvents, runs_bind] at hr
    obtain ⟨_, t₁, t₂, rfl, h₁, h₂⟩ := hr
    obtain ⟨d₁, rfl, hd₁, hp₁, hf₁⟩ := handleEvent_cases hd h₁
    obtain ⟨d', rfl, hd', hp₂, hf₂⟩ := ih hd₁ h₂
    refine ⟨d', rfl, by rwa [← List.append_assoc], by rw [polls_append, hp₁, hp₂]; rfl, ?_⟩
    rw [List.exists_mem_cons_iff, or_assoc, or_left_comm]
    rintro (he | he)
    · exact hf₂ (.inl he)
    · exact hf₂ (.inr (hf₁ he))

theorem pollDownload_cases {r : Download ⊕ Option Download} (hd : Inv pucBuffer sizBuffer d h)
    (hr : Runs (pollDownload sha d) t r) :
    (d.http.fIsFinished ≠ 0 ∧ t = [] ∧ r = .inr (some d)) ∨
    (d.http.fIsFinished = 0 ∧ ∃ es d', r = .inl d' ∧ Inv pucBuffer sizBuffer d' (h ++ t) ∧
      polls t = [es] ∧ ((∃ e ∈ es, IsResult e) → d'.http.fIsFinished ≠ 0)) := by
  by_cases hf : d.http.fIsFinished = 0
  · simp only [pollDownload, hf, ↓reduceIte, runs_bind, runs_perform] at hr
    obtain ⟨es, _, _, rfl, rfl, _, t₁, t₂, rfl, h₁, h₂⟩ := hr
    have hd₁ : Inv pucBuffer sizBuffer d (h ++ [⟨.networkCyclicProcess, es⟩]) := by
      refine ⟨hd.valid, hd.start, hd.stop, fun hs => ?_, hd.length, ?_⟩
      · rw [last_append_none h (by simp [finalized])]
        exact hd.hash hs
      · rw [downloads_append, hd.running]
        rfl
    obtain ⟨d', rfl, hd', hp, hf'⟩ := handleEvents_cases hd₁ h₁
    obtain ⟨rfl, rfl⟩ := h₂
    refine .inr ⟨hf, es, d', rfl, ?_, ?_, fun he => hf' (.inl he)⟩
    · rwa [List.append_nil, ← List.append_assoc]
    · rw [polls_append, polls_append, hp]
      rfl
  · simp only [pollDownload, hf, ↓reduceIte] at hr
    obtain ⟨rfl, rfl⟩ := hr
    exact .inl ⟨hf, rfl, rfl⟩

theorem wait_finished {n : Nat} {r : Option (Option Download)} (hd : Inv pucBuffer sizBuffer d h)
    (hf : d.http.fIsFinished ≠ 0) (hr : Runs (loop (pollDownload sha) (n + 1) d) t r) :
    r = some (some d) := by
  rcases runs_loop_succ.mp hr with ⟨d₁, t₁, t₂, rfl, h₁, -⟩ | ⟨b, rfl, hb⟩
  · obtain ⟨-, -, hx⟩ | ⟨h0, -⟩ := pollDownload_cases hd h₁
    · cases hx
    · exact absurd h0 hf
  · obtain ⟨-, -, hx⟩ | ⟨h0, -⟩ := pollDownload_cases hd hb
    · rw [Sum.inr.inj hx]
    · exact absurd h0 hf

/-- The wait loop ends with a finished download, or it is still waiting since
no poll before the last one had a result. -/
theorem wait_cases {n : Nat} {r : Option (Option Download)} (hd : Inv pucBuffer sizBuffer d h)
    (hr : Runs (loop (pollDownload sha) n d) t r) :
    (∃ d', r = some (some d') ∧ Inv pucBuffer sizBuffer d' (h ++ t)) ∨
    (r = none ∧ ∀ es ∈ (polls t).take (n - 1), ∀ e ∈ es, ¬ IsResult e) := by
  induction n generalizing d h t with
  | zero =>
    obtain ⟨rfl, rfl⟩ := hr
    exact .inr ⟨rfl, by simp [polls]⟩
  | succ n ih =>
    rcases runs_loop_succ.mp hr with ⟨d₁, t₁, t₂, rfl, h₁, h₂⟩ | ⟨b, rfl, hb⟩
    · obtain ⟨-, -, hx⟩ | ⟨-, es, d', hx, hd', hp, hf⟩ := pollDownload_cases hd h₁
      · cases hx
      · obtain rfl := Sum.inl.inj hx
        obtain ⟨d', rfl, hi⟩ | ⟨rfl, hno⟩ := ih hd' h₂
        · exact .inl ⟨d', rfl, by rwa [← List.append_assoc]⟩
        · refine .inr ⟨rfl, ?_⟩
          rw [polls_append, hp]
          cases n with
          | zero => simp
          | succ n =>
            rw [Nat.add_sub_cancel, List.singleton_append, List.take_succ_cons,
              List.forall_mem_cons]
            refine ⟨fun e he hres => ?_, hno⟩
            cases wait_finished hd' (hf ⟨e, he, hres⟩) h₂
    · obtain ⟨-, rfl, hx⟩ | ⟨-, es, d', hx, -⟩ := pollDownload_cases hd hb
      · obtain rfl := Sum.inr.inj hx
        exact .inl ⟨d, rfl, by rwa [List.append_nil]⟩
      · cases hx

end Callbacks

/-- Everything the application relies on in a download that was successful. -/
structure Completed (sizBuffer : Nat) (t : List MainEvent) (size : Nat) (tHash : List UInt8) :
    Prop where
  ended : downloads t = [(.ok, 200, .ok)]
  hash : last finalized t = some tHash
  length : tHash.length = 48
  fits : size ≤ sizBuffer

/-- What `httpDownload` can do. It does not return only if the HTTP client does
not report the result. -/
theorem httpDownload_cases {sha : ShaUnit} {mem : Memory} {uri : Uri} {pucBuffer sizBuffer n : Nat}
    (hfits : pucBuffer + sizBuffer < 2 ^ 32) {t : List MainEvent}
    {r : Option (Memory × Option (Nat × List UInt8))}
    (hr : Runs (httpDownload sha mem uri pucBuffer sizBuffer n) t r) :
    (r = none ∧ ¬ Answered n t) ∨ (∃ mem', r = some (mem', none)) ∨
    ∃ mem' size tHash, r = some (mem', some (size, tHash)) ∧ Completed sizBuffer t size tHash := by
  simp only [httpDownload, runs_bind, runs_perform] at hr
  obtain ⟨time, _, _, rfl, rfl, tResult, _, t₁, rfl, rfl, hr⟩ := hr
  by_cases hget : tResult = .ok
  · subst tResult
    simp only [↓reduceIte, runs_bind] at hr
    obtain ⟨_, t₂, t₃, rfl, hwait, hr⟩ := hr
    obtain ⟨d, rfl, hd⟩ | ⟨rfl, hno⟩ := wait_cases (inv_initial hfits mem) hwait
    · refine .inr ?_
      simp only [runs_bind, runs_perform] at hr
      obtain ⟨time', _, _, rfl, rfl, _, _, t₄, rfl, rfl, hr⟩ := hr
      by_cases hok : Successful d.http
      · refine .inr ?_
        obtain ⟨hres, hsrv, herr⟩ := id hok
        simp only [hres, hsrv, herr, and_self, ↓reduceIte, runs_pure] at hr
        obtain ⟨rfl, rfl⟩ := hr
        refine ⟨_, _, _, rfl, ?_, ?_, hd.length, ?_⟩
        · have hrun : downloads t₂ = [] := hd.running
          calc downloads _ = downloads (t₂ ++ _) := rfl
            _ = downloads t₂ ++ [_] := downloads_append t₂ _
            _ = [(.ok, 200, .ok)] := by rw [hrun, hres, hsrv, herr]; rfl
        · have hlast : last finalized t₂ = some d.http.tHash := hd.hash hok
          exact last_append_some [_] (last_append_some [_]
            ((last_append_none t₂ (by simp [finalized])).trans hlast))
        · have hcnt := hd.valid.cnt_le
          have hstart := hd.valid.start_le
          rw [sub32_of_le hstart (hcnt.trans_lt hd.valid.end_lt)]
          have := hd.start
          have := hd.stop
          omega
      · refine .inl ⟨d.mem, ?_⟩
        rw [if_neg (by exact hok)] at hr
        exact hr.2
    · obtain ⟨rfl, rfl⟩ := hr
      refine .inl ⟨rfl, fun ha => ?_⟩
      obtain ⟨es, hes, e, he, hres⟩ := ha [⟨.systimeGetMs, time⟩] uri t₂ (by simp)
      exact hno es hes e he hres
  · simp only [hget, ↓reduceIte, runs_pure] at hr
    obtain ⟨rfl, rfl⟩ := hr
    exact .inr (.inl ⟨mem, rfl⟩)

def Downloading : MainCall → Prop
  | .systimeGetMs | .httpcGetFile _ | .networkCyclicProcess => True
  | .note (.finalized _) | .note (.httpDownload _ _ _) => True
  | _ => False

theorem calls_handleEvents (sha : ShaUnit) (es : List HttpEvent) (d : Download) :
    Calls Downloading (handleEvents sha es d) := by
  induction es generalizing d with
  | nil => trivial
  | cons e es ih =>
    refine calls_bind ?_ fun x => ?_
    · cases e with
      | data contents p err => cases p <;> trivial
      | result res len srv err =>
        by_cases hok : res = .ok ∧ srv = 200 ∧ err = .ok
        · simp only [handleEvent, hok, and_self, ↓reduceIte]
          exact calls_bind (calls_perform trivial) fun _ => trivial
        · simp only [handleEvent, hok, ↓reduceIte]
          trivial
    · cases x with
      | none => trivial
      | some d => exact ih d

theorem calls_pollDownload (sha : ShaUnit) (d : Download) :
    Calls Downloading (pollDownload sha d) := by
  by_cases hf : d.http.fIsFinished = 0
  · simp only [pollDownload, hf, ↓reduceIte]
    refine calls_bind (calls_perform trivial) fun es => calls_bind (calls_handleEvents sha es d) ?_
    intro x
    cases x <;> trivial
  · simp only [pollDownload, hf, ↓reduceIte]
    trivial

theorem calls_httpDownload (sha : ShaUnit) (mem : Memory) (uri : Uri)
    (pucBuffer sizBuffer n : Nat) :
    Calls Downloading (httpDownload sha mem uri pucBuffer sizBuffer n) := by
  refine calls_bind (calls_perform trivial) fun _ => calls_bind (calls_perform trivial) ?_
  intro tResult
  by_cases hget : tResult = .ok
  · rw [if_pos hget]
    refine calls_bind (calls_loop (calls_pollDownload sha) n _) ?_
    intro x
    match x with
    | none | some none => trivial
    | some (some d) =>
      refine calls_bind (calls_perform trivial) fun _ => calls_bind (calls_perform trivial) ?_
      intro _
      by_cases hok : Successful d.http
      · rw [if_pos (by exact hok)]
        trivial
      · rw [if_neg (by exact hok)]
        trivial
  · rw [if_neg hget]
    trivial

end FlashApp.MainDownload
