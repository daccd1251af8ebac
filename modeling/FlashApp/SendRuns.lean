import FlashApp.SendMessage
import FlashApp.Trace

namespace FlashApp.SendRuns

open Bytes Interaction Lwip SendMessage

def Phase : TcpCall → Prop
  | .timerStart _ | .timerIsElapsed | .networkCyclicProcess | .tcpSndbuf | .tcpWrite _ _ _
  | .tcpOutput => True
  | _ => False

section Polling

variable {P : TcpCall → Prop}

theorem calls_handleEvents (hstart : ∀ ulMs, P (.timerStart ulMs)) (c : CallbackData) (es : List StackEvent) :
    Calls P (handleEvents c es) := by
  induction es generalizing c with
  | nil => exact calls_pure c
  | cons e es ih =>
    cases e with
    | connected | freed => exact ih _
    | acked n =>
      unfold handleEvents sendMessageSentCallback
      exact calls_bind (calls_bind (calls_perform (hstart _)) fun _ => calls_pure _) ih

theorem calls_poll (hstart : ∀ ulMs, P (.timerStart ulMs)) (hpoll : P .networkCyclicProcess)
    (c : CallbackData) : Calls P (poll c) := by
  unfold poll
  exact calls_bind (calls_perform hpoll) (calls_handleEvents hstart c)

theorem calls_waitConnected (hstart : ∀ ulMs, P (.timerStart ulMs)) (hpoll : P .networkCyclicProcess)
    (helapsed : P .timerIsElapsed) (c : CallbackData) : Calls P (waitConnected c) := by
  unfold waitConnected
  split
  · refine calls_bind (calls_poll hstart hpoll c) fun c' => calls_bind (calls_perform helapsed) fun b => ?_
    split <;> exact calls_pure _
  · exact calls_pure _

theorem calls_pushMessage (hstart : ∀ ulMs, P (.timerStart ulMs)) (hpoll : P .networkCyclicProcess)
    (helapsed : P .timerIsElapsed) (siz : Nat) (c : CallbackData) : Calls P (pushMessage siz c) := by
  unfold pushMessage
  split
  · refine calls_bind (calls_perform helapsed) fun b => ?_
    split
    · exact calls_pure _
    · exact calls_bind (calls_poll hstart hpoll c) fun _ => calls_pure _
  · exact calls_pure _

end Polling

theorem calls_writeChunk (pucCnt : Nat) (chunk : Nat × Nat) :
    Calls Phase (writeChunk pucCnt chunk) := by
  unfold writeChunk
  refine calls_bind (calls_perform trivial) fun r => ?_
  split <;> exact calls_pure _

theorem calls_queueChunk (pucCnt pucEnd : Nat) : Calls Phase (queueChunk pucCnt pucEnd) := by
  unfold queueChunk
  refine calls_bind (calls_perform trivial) fun k => ?_
  split
  · exact calls_writeChunk _ _
  · exact calls_pure _

theorem calls_queueMessage (pucEnd : Nat) (s : Nat × CallbackData) :
    Calls Phase (queueMessage pucEnd s) := by
  unfold queueMessage
  split
  · refine calls_bind (calls_queueChunk _ _) fun x => ?_
    dsimp only
    split
    · refine calls_bind (calls_perform trivial) fun b => ?_
      split
      · exact calls_pure _
      · exact calls_bind (calls_poll (fun _ => trivial) trivial _) fun _ => calls_pure _
    · exact calls_pure _
  · exact calls_pure _

theorem calls_transmit (msg : Message) (c : CallbackData) (n : Nat) :
    Calls Phase (transmit msg c n) := by
  unfold transmit
  refine calls_bind (calls_perform trivial) fun _ => calls_bind
    (calls_loop (calls_queueMessage _) _ _) fun x => ?_
  cases x with
  | none => exact calls_pure _
  | some x =>
    dsimp only
    split
    · refine calls_bind (calls_perform trivial) fun r => ?_
      split
      · exact calls_loop (calls_pushMessage (fun _ => trivial) trivial trivial _) _ _
      · exact calls_pure _
    · exact calls_pure _

theorem calls_exchange (msg : Message) (n : Nat) : Calls Phase (exchange msg n) := by
  unfold exchange
  refine calls_bind (calls_perform trivial) fun _ => calls_bind
    (calls_loop (calls_waitConnected (fun _ => trivial) trivial trivial) _ _) fun x => ?_
  cases x with
  | none => exact calls_pure _
  | some x =>
    dsimp only
    split
    · exact calls_transmit _ _ _
    · exact calls_pure _

abbrev elapsedEvent (fElapsed : Bool) : TcpEvent := ⟨.timerIsElapsed, fElapsed⟩

/-- Everything that one round of waiting for the connection can do. -/
inductive WaitRun (c : CallbackData) :
    List TcpEvent → CallbackData ⊕ (ErrT × CallbackData) → Prop
  | done (h : ¬ (c.tResult = .ok ∧ c.uiIsConnected = 0)) : WaitRun c [] (.inr (.ok, c))
  | polled {t : List TcpEvent} {c' : CallbackData} (ht : Runs (poll c) t c') :
      WaitRun c (t ++ [elapsedEvent false]) (.inl c')
  | elapsed {t : List TcpEvent} {c' : CallbackData} (ht : Runs (poll c) t c') :
      WaitRun c (t ++ [elapsedEvent true]) (.inr (.timeout, c'))

theorem waitConnected_cases {c : CallbackData} {t : List TcpEvent}
    {x : CallbackData ⊕ (ErrT × CallbackData)} (h : Runs (waitConnected c) t x) : WaitRun c t x := by
  unfold waitConnected at h
  split at h
  · simp only [runs_bind, runs_perform] at h
    obtain ⟨c', t₁, _, rfl, ht, b, _, t₂, rfl, rfl, h⟩ := h
    cases b with
    | true =>
      obtain ⟨rfl, rfl⟩ := h
      exact .elapsed ht
    | false =>
      obtain ⟨rfl, rfl⟩ := h
      exact .polled ht
  · rename_i hc
    obtain ⟨rfl, rfl⟩ := h
    exact .done hc

inductive ChunkRun (pucCnt pucEnd : Nat) : List TcpEvent → ErrT × Nat → Prop
  | full : ChunkRun pucCnt pucEnd [⟨.tcpSndbuf, 0⟩] (.ok, pucCnt)
  | written {k : UInt16} (hk : k > 0) {chunk : Nat × Nat}
      (hchunk : nextChunk k.toNat (sub32 pucEnd pucCnt) = chunk) :
      ChunkRun pucCnt pucEnd [⟨.tcpSndbuf, k⟩, ⟨.tcpWrite pucCnt chunk.1 chunk.2, .ok⟩]
        (.ok, add32 pucCnt chunk.1)
  | failed {k : UInt16} (hk : k > 0) {chunk : Nat × Nat}
      (hchunk : nextChunk k.toNat (sub32 pucEnd pucCnt) = chunk) {e : ErrT} (he : e ≠ .ok) :
      ChunkRun pucCnt pucEnd [⟨.tcpSndbuf, k⟩, ⟨.tcpWrite pucCnt chunk.1 chunk.2, e⟩] (e, pucCnt)

theorem queueChunk_cases {pucCnt pucEnd : Nat} {t : List TcpEvent} {x : ErrT × Nat}
    (h : Runs (queueChunk pucCnt pucEnd) t x) : ChunkRun pucCnt pucEnd t x := by
  simp only [queueChunk, runs_bind, runs_perform] at h
  obtain ⟨k, _, t₁, rfl, rfl, h⟩ := h
  by_cases hk : k > 0
  · rw [if_pos hk] at h
    generalize hchunk : nextChunk k.toNat (sub32 pucEnd pucCnt) = chunk at h
    simp only [writeChunk, runs_bind, runs_perform] at h
    obtain ⟨e, _, t₂, rfl, rfl, h⟩ := h
    by_cases he : e = .ok
    · subst e
      obtain ⟨rfl, rfl⟩ := h
      exact .written hk hchunk
    · rw [if_neg he] at h
      obtain ⟨rfl, rfl⟩ := h
      exact .failed hk hchunk he
  · rw [if_neg hk] at h
    obtain ⟨rfl, rfl⟩ := h
    obtain rfl : k = 0 := UInt16.le_zero_iff.mp (UInt16.not_lt.mp hk)
    exact .full

inductive QueueRun (pucEnd : Nat) (s : Nat × CallbackData) :
    List TcpEvent → (Nat × CallbackData) ⊕ (ErrT × CallbackData) → Prop
  | done (h : ¬ s.1 < pucEnd) : QueueRun pucEnd s [] (.inr (.ok, s.2))
  | polled (h : s.1 < pucEnd) {t u : List TcpEvent} {pucCnt : Nat} {c : CallbackData}
      (ht : ChunkRun s.1 pucEnd t (.ok, pucCnt)) (hu : Runs (poll s.2) u c) :
      QueueRun pucEnd s (t ++ elapsedEvent false :: u) (.inl (pucCnt, c))
  | elapsed (h : s.1 < pucEnd) {t : List TcpEvent} {pucCnt : Nat}
      (ht : ChunkRun s.1 pucEnd t (.ok, pucCnt)) :
      QueueRun pucEnd s (t ++ [elapsedEvent true]) (.inr (.timeout, s.2))
  | failed (h : s.1 < pucEnd) {t : List TcpEvent} {e : ErrT} {pucCnt : Nat}
      (ht : ChunkRun s.1 pucEnd t (e, pucCnt)) (he : e ≠ .ok) :
      QueueRun pucEnd s t (.inr (e, s.2))

theorem queueMessage_cases {pucEnd : Nat} {s : Nat × CallbackData} {t : List TcpEvent}
    {x : (Nat × CallbackData) ⊕ (ErrT × CallbackData)} (h : Runs (queueMessage pucEnd s) t x) :
    QueueRun pucEnd s t x := by
  unfold queueMessage at h
  by_cases hs : s.1 < pucEnd
  · simp only [hs, ↓reduceIte, runs_bind, Prod.exists] at h
    obtain ⟨e, cnt, t₁, t₂, rfl, ht, h⟩ := h
    have hrun := queueChunk_cases ht
    by_cases he : e = .ok
    · subst e
      simp only [↓reduceIte, runs_bind, runs_perform] at h
      obtain ⟨b, _, t₃, rfl, rfl, h⟩ := h
      cases b with
      | true =>
        obtain ⟨rfl, rfl⟩ := h
        exact .elapsed hs hrun
      | false =>
        simp only [Bool.false_eq_true, ↓reduceIte, runs_bind, runs_pure] at h
        obtain ⟨c, u, _, rfl, hu, rfl, rfl⟩ := h
        rw [List.append_nil]
        exact .polled hs hrun hu
    · rw [if_neg he] at h
      obtain ⟨rfl, rfl⟩ := h
      rw [List.append_nil]
      exact .failed hs hrun he
  · rw [if_neg hs] at h
    obtain ⟨rfl, rfl⟩ := h
    exact .done hs

inductive PushRun (sizMessage : Nat) (c : CallbackData) :
    List TcpEvent → CallbackData ⊕ ErrT → Prop
  | done (h : ¬ c.ulSentData < sizMessage) : PushRun sizMessage c [] (.inr .ok)
  | elapsed : PushRun sizMessage c [elapsedEvent true] (.inr .timeout)
  | polled {t : List TcpEvent} {c' : CallbackData} (ht : Runs (poll c) t c') :
      PushRun sizMessage c (elapsedEvent false :: t) (.inl c')

theorem pushMessage_cases {sizMessage : Nat} {c : CallbackData} {t : List TcpEvent}
    {x : CallbackData ⊕ ErrT} (h : Runs (pushMessage sizMessage c) t x) : PushRun sizMessage c t x := by
  unfold pushMessage at h
  split at h
  · simp only [runs_bind, runs_perform] at h
    obtain ⟨b, _, t₁, rfl, rfl, h⟩ := h
    cases b with
    | true =>
      obtain ⟨rfl, rfl⟩ := h
      exact .elapsed
    | false =>
      simp only [Bool.false_eq_true, ↓reduceIte, runs_bind, runs_pure] at h
      obtain ⟨c', u, _, rfl, hu, rfl, rfl⟩ := h
      rw [List.append_nil]
      exact .polled hu
  · rename_i hc
    obtain ⟨rfl, rfl⟩ := h
    exact .done hc

abbrev header (tResult : ErrT) : List TcpEvent :=
  [⟨.tcpNew, true⟩, ⟨.tcpArg, ()⟩, ⟨.tcpSent, ()⟩, ⟨.tcpConnect, tResult⟩]

/-- Everything that `sendMessage` can do, up to the part between the connect
and the close. -/
inductive SendRun (msg : Message) (n : Nat) : List TcpEvent → Option Int → Prop
  | noPcb : SendRun msg n [⟨.tcpNew, false⟩] (some (-1))
  | noConnect {tResult : ErrT} (h : tResult ≠ .ok) : SendRun msg n (header tResult) (some (-1))
  | unfinished {u : List TcpEvent} (hu : Runs (exchange msg n) u none) :
      SendRun msg n (header .ok ++ u) none
  | closed {u : List TcpEvent} {tResult : ErrT} (hu : Runs (exchange msg n) u (some tResult))
      (fKept : Bool) :
      SendRun msg n (header .ok ++ u ++ [⟨.tcpClose, (.ok, fKept)⟩])
        (some (if tResult = .ok then 0 else -1))
  | aborted {u : List TcpEvent} {tResult : ErrT} (hu : Runs (exchange msg n) u (some tResult))
      {tCloseResult : ErrT} (h : tCloseResult ≠ .ok) (fKept : Bool) :
      SendRun msg n (header .ok ++ u ++ [⟨.tcpClose, (tCloseResult, fKept)⟩, ⟨.tcpAbort, ()⟩])
        (some (-1))

theorem sendMessage_cases {msg : Message} {n : Nat} {t : List TcpEvent} {r : Option Int}
    (h : Runs (sendMessage msg n) t r) : SendRun msg n t r := by
  simp only [sendMessage, runs_bind, runs_perform] at h
  obtain ⟨pcb, _, t₁, rfl, rfl, h⟩ := h
  cases pcb with
  | false =>
    obtain ⟨rfl, rfl⟩ := h
    exact .noPcb
  | true =>
    simp only [↓reduceIte, runs_bind, runs_perform] at h
    obtain ⟨_, _, _, rfl, rfl, _, _, _, rfl, rfl, res, _, t₂, rfl, rfl, h⟩ := h
    by_cases hres : res = .ok
    · subst res
      simp only [↓reduceIte, runs_bind] at h
      obtain ⟨x, u, t₃, rfl, hu, h⟩ := h
      cases x with
      | none =>
        obtain ⟨rfl, rfl⟩ := h
        rw [List.append_nil]
        exact .unfinished hu
      | some e =>
        simp only [closePcb, runs_bind, runs_perform, Prod.exists, runs_pure] at h
        obtain ⟨i, _, _, rfl, ⟨ec, k, _, t₄, rfl, rfl, h⟩, rfl, rfl⟩ := h
        by_cases hec : ec = .ok
        · subst ec
          have hi : t₄ = [] ∧ i = if e = .ok then 0 else -1 := by
            by_cases he : e = .ok <;> simpa [he] using h
          obtain ⟨rfl, rfl⟩ := hi
          have hrun : SendRun msg n _ _ := .closed hu k
          simpa using hrun
        · simp only [hec, ne_eq, not_false_eq_true, ↓reduceIte, runs_bind, runs_perform,
            runs_pure] at h
          obtain ⟨_, _, _, rfl, rfl, rfl, rfl⟩ := h
          have hrun : SendRun msg n _ _ := .aborted hu hec k
          simpa using hrun
    · simp only [hres, ↓reduceIte, runs_pure] at h
      obtain ⟨rfl, rfl⟩ := h
      exact .noConnect hres

end FlashApp.SendRuns
