import FlashApp.SendReferences
import Mathlib.Data.List.Induction

namespace FlashApp.SendChunks

open Bytes Interaction Trace Lwip SendMessage SendRuns SendPcb SendReferences

/-- The address and the length of the data passed to `tcp_write`. -/
def chunkOf : TcpEvent → Option (Nat × Nat)
  | ⟨.tcpWrite pucCnt usChunk _, _⟩ => some (pucCnt, usChunk)
  | _ => none

def chunks (t : List TcpEvent) : List (Nat × Nat) := t.filterMap chunkOf

def total (ws : List (Nat × Nat)) : Nat := (ws.map Prod.snd).sum

def bytes (m : Memory) (ws : List (Nat × Nat)) : List UInt8 := ws.flatMap fun w => slice m w.1 w.2

/-- A chunk is the next part of the message after the events `pre`. The space
in the send buffer is read just before, and more data is announced unless the
chunk ends the message. -/
structure NextPart (msg : Message) (pre : List TcpEvent) (pucCnt usChunk ucFlags : Nat) : Prop where
  start : pucCnt = msg.pvMessage + total (chunks pre)
  inside : total (chunks pre) + usChunk ≤ msg.sizMessage
  sndbuf : ∃ pre' k, pre = pre' ++ [⟨.tcpSndbuf, k⟩] ∧ usChunk ≤ k.toNat
  more : ucFlags = if total (chunks pre) + usChunk = msg.sizMessage then 0 else tcpWriteFlagMore

def Writes (msg : Message) (pre : List TcpEvent) : TcpEvent → Prop
  | ⟨.tcpWrite pucCnt usChunk ucFlags, _⟩ => NextPart msg pre pucCnt usChunk ucFlags
  | _ => True

/-- The connect callback was called without an error. -/
def Connected (t : List TcpEvent) : Prop :=
  ∃ es : List StackEvent, ⟨.networkCyclicProcess, es⟩ ∈ t ∧ .connected .ok ∈ es

def Quiet : TcpCall → Prop
  | .tcpWrite _ _ _ => False
  | _ => True

variable {msg : Message} {c c' : CallbackData} {t h u : List TcpEvent}

theorem chunks_append (s t : List TcpEvent) : chunks (s ++ t) = chunks s ++ chunks t :=
  List.filterMap_append

theorem total_append (v w : List (Nat × Nat)) : total (v ++ w) = total v + total w := by
  simp [total]

theorem chunks_quiet (hu : ∀ e ∈ u, Quiet e.1) : chunks u = [] := by
  rw [chunks, List.filterMap_eq_nil_iff]
  intro e he
  have hq := hu e he
  obtain ⟨c, r⟩ := e
  cases c with
  | tcpWrite => exact hq.elim
  | _ => rfl

theorem writes_quiet {e : TcpEvent} (he : Quiet e.1) (pre : List TcpEvent) : Writes msg pre e := by
  obtain ⟨c, r⟩ := e
  cases c with
  | tcpWrite => exact he.elim
  | _ => trivial

theorem always_quiet (hh : Always (Writes msg) h) (hu : ∀ e ∈ u, Quiet e.1) : Always (Writes msg) (h ++ u) := by
  rw [always_append]
  exact ⟨hh, .of_forall fun e he pre => writes_quiet (hu e he) _⟩

theorem bytes_of_always (m : Memory) (ht : Always (Writes msg) t) :
    bytes m (chunks t) = slice m msg.pvMessage (total (chunks t)) ∧ total (chunks t) ≤ msg.sizMessage := by
  induction t using List.reverseRecOn with
  | nil => exact ⟨rfl, Nat.zero_le _⟩
  | append_singleton t e ih =>
    rw [always_append, always_singleton, List.append_nil] at ht
    obtain ⟨hbytes, hle⟩ := ih ht.1
    by_cases hq : Quiet e.1
    · rw [chunks_append, chunks_quiet (u := [e]) (by simpa using hq), List.append_nil]
      exact ⟨hbytes, hle⟩
    · obtain ⟨c, r⟩ := e
      cases c with
      | tcpWrite pucCnt usChunk ucFlags =>
        obtain ⟨hstart, hinside, -, -⟩ := ht.2
        have hnew : chunks [⟨.tcpWrite pucCnt usChunk ucFlags, r⟩] = [(pucCnt, usChunk)] := rfl
        have htotal : total [(pucCnt, usChunk)] = usChunk := rfl
        have hchunk : bytes m [(pucCnt, usChunk)] = slice m pucCnt usChunk := by simp [bytes]
        rw [chunks_append, total_append, hnew, htotal]
        refine ⟨?_, hinside⟩
        rw [slice_add, ← hbytes, ← hstart, ← hchunk]
        exact List.flatMap_append
      | _ => exact absurd trivial hq

section Queue

theorem nextChunk_spec (k : UInt16) (left : Nat) :
    (nextChunk k.toNat left).1 ≤ k.toNat ∧ (nextChunk k.toNat left).1 ≤ left ∧
      (nextChunk k.toNat left).2 = if (nextChunk k.toNat left).1 = left then 0 else tcpWriteFlagMore := by
  have hk : k.toNat < 2 ^ 16 := k.toNat_lt
  unfold nextChunk
  split
  · have hmod : left % 2 ^ 16 = left := Nat.mod_eq_of_lt (by omega)
    simp only [hmod]
    exact ⟨by omega, le_rfl, by simp⟩
  · refine ⟨le_rfl, by simp only; omega, ?_⟩
    rw [if_neg]
    simp only
    omega

theorem chunks_tcpSndbuf (h : List TcpEvent) (k : UInt16) : chunks (h ++ [⟨.tcpSndbuf, k⟩]) = chunks h := by
  rw [chunks_append]
  exact List.append_nil _

theorem part_writes {cnt : Nat} {k : UInt16} {chunk : Nat × Nat} (hh : Always (Writes msg) h)
    (hcnt : cnt = msg.pvMessage + total (chunks h)) (hle : total (chunks h) ≤ msg.sizMessage)
    (hchunk : nextChunk k.toNat (msg.sizMessage - total (chunks h)) = chunk) (r : ErrT) :
    Always (Writes msg) (h ++ [⟨.tcpSndbuf, k⟩, ⟨.tcpWrite cnt chunk.1 chunk.2, r⟩]) ∧
      total (chunks (h ++ [⟨.tcpSndbuf, k⟩, ⟨.tcpWrite cnt chunk.1 chunk.2, r⟩])) =
        total (chunks h) + chunk.1 ∧ total (chunks h) + chunk.1 ≤ msg.sizMessage := by
  obtain ⟨hsnd, hin, hmore⟩ := nextChunk_spec k (msg.sizMessage - total (chunks h))
  rw [hchunk] at hsnd hin hmore
  have hsame := chunks_tcpSndbuf h k
  refine ⟨?_, ?_, by omega⟩
  · rw [always_append, always_cons, always_singleton]
    refine ⟨hh, trivial, ⟨by rw [hsame, hcnt], by rw [hsame]; omega, ⟨h, k, rfl, hsnd⟩, ?_⟩⟩
    rw [hsame, hmore]
    exact if_congr (by omega) rfl rfl
  · rw [chunks_append, total_append]
    rfl

theorem chunkRun_writes {cnt cnt' : Nat} {e : ErrT} (hh : Always (Writes msg) h)
    (hcnt : cnt = msg.pvMessage + total (chunks h)) (hle : total (chunks h) ≤ msg.sizMessage)
    (hr : ChunkRun cnt (msg.pvMessage + msg.sizMessage) t (e, cnt')) :
    Always (Writes msg) (h ++ t) ∧ total (chunks (h ++ t)) ≤ msg.sizMessage ∧
      (e = .ok → cnt' = msg.pvMessage + total (chunks (h ++ t))) := by
  have hfits := msg.fits
  have hleft : sub32 (msg.pvMessage + msg.sizMessage) cnt = msg.sizMessage - total (chunks h) := by
    rw [sub32_of_le (by omega) hfits]
    omega
  cases hr with
  | full =>
    have hsame := chunks_tcpSndbuf h 0
    exact ⟨always_quiet hh (by simp [Quiet]), by rwa [hsame], fun _ => by rw [hsame, hcnt]⟩
  | @written k hk chunk hchunk =>
    rw [hleft] at hchunk
    obtain ⟨hall, htotal, hin⟩ := part_writes hh hcnt hle hchunk .ok
    refine ⟨hall, by omega, fun _ => ?_⟩
    rw [add32_of_lt (by omega), htotal, hcnt, Nat.add_assoc]
  | @failed k hk chunk hchunk _ he =>
    rw [hleft] at hchunk
    obtain ⟨hall, htotal, hin⟩ := part_writes hh hcnt hle hchunk e
    exact ⟨hall, by omega, fun h => absurd h he⟩

theorem poll_quiet {c' : CallbackData} (hr : Runs (poll c) t c') : ∀ e ∈ t, Quiet e.1 :=
  (calls_poll (fun _ => trivial) trivial c).forall_mem hr

theorem queueMessage_writes {n : Nat} {s : Nat × CallbackData} {r : Option (ErrT × CallbackData)}
    (hs : Always (Writes msg) h ∧ s.1 = msg.pvMessage + total (chunks h) ∧ total (chunks h) ≤ msg.sizMessage)
    (hr : Runs (loop (queueMessage (msg.pvMessage + msg.sizMessage)) n s) t r) :
    Always (Writes msg) (h ++ t) := by
  refine loop_rule (fun s h => Always (Writes msg) h ∧ s.1 = msg.pvMessage + total (chunks h) ∧
    total (chunks h) ≤ msg.sizMessage) (fun _ h => Always (Writes msg) h) (fun _ _ hs => hs.1) ?_ ?_ hs hr
  · rintro s h t s' ⟨hh, hcnt, hle⟩ hr
    cases queueMessage_cases hr with
    | @polled hlt t u cnt c' ht hu =>
      obtain ⟨hall, hin, hcnt'⟩ := chunkRun_writes hh hcnt hle ht
      have hquiet : ∀ e ∈ elapsedEvent false :: u, Quiet e.1 := by
        rw [List.forall_mem_cons]
        exact ⟨trivial, poll_quiet hu⟩
      have hsame : chunks (h ++ (t ++ elapsedEvent false :: u)) = chunks (h ++ t) := by
        rw [← List.append_assoc, chunks_append (h ++ t), chunks_quiet hquiet, List.append_nil]
      refine ⟨?_, ?_, ?_⟩
      · rw [← List.append_assoc]
        exact always_quiet hall hquiet
      · rw [hsame]
        exact hcnt' rfl
      · rwa [hsame]
  · rintro s h t b ⟨hh, hcnt, hle⟩ hr
    cases queueMessage_cases hr with
    | done => rwa [List.append_nil]
    | elapsed hlt ht =>
      rw [← List.append_assoc]
      exact always_quiet (chunkRun_writes hh hcnt hle ht).1 (by simp [Quiet])
    | failed hlt ht he => exact (chunkRun_writes hh hcnt hle ht).1

theorem transmit_writes {n : Nat} {r : Option ErrT} (hh : Always (Writes msg) h) (hnone : chunks h = [])
    (hr : Runs (transmit msg c n) t r) : Always (Writes msg) (h ++ t) := by
  simp only [transmit, runs_bind, runs_perform, add32_of_lt msg.fits] at hr
  obtain ⟨_, _, _, rfl, rfl, y, t₁, t₂, rfl, hl, hr⟩ := hr
  have hstart : chunks (h ++ [⟨.timerStart 10000, ()⟩]) = [] := by
    rw [chunks_append, hnone]
    rfl
  have hqueue := queueMessage_writes (h := h ++ [⟨.timerStart 10000, ()⟩])
    ⟨always_quiet hh (by simp [Quiet]), by rw [hstart]; rfl, by rw [hstart]; exact Nat.zero_le _⟩ hl
  rw [← List.append_assoc, ← List.append_assoc]
  apply always_quiet hqueue
  cases y with
  | none =>
    obtain ⟨rfl, -⟩ := hr
    simp
  | some y =>
    obtain ⟨ey, cy⟩ := y
    by_cases hey : ey = .ok
    · simp only [hey, ↓reduceIte, runs_bind, runs_perform] at hr
      obtain ⟨eo, _, t₃, rfl, rfl, hr⟩ := hr
      rw [List.singleton_append, List.forall_mem_cons]
      refine ⟨trivial, ?_⟩
      by_cases heo : eo = .ok
      · rw [if_pos heo] at hr
        exact (calls_loop (calls_pushMessage (fun _ => trivial) trivial trivial _) n cy).forall_mem hr
      · rw [if_neg heo] at hr
        obtain ⟨rfl, -⟩ := hr
        simp
    · simp only [hey, ↓reduceIte, runs_pure] at hr
      obtain ⟨rfl, -⟩ := hr
      simp

theorem exchange_writes {n : Nat} {r : Option ErrT} (hh : Always (Writes msg) h) (hnone : chunks h = [])
    (hr : Runs (exchange msg n) t r) : Always (Writes msg) (h ++ t) := by
  simp only [exchange, runs_bind, runs_perform] at hr
  obtain ⟨_, _, _, rfl, rfl, y, t₁, t₂, rfl, hl, hr⟩ := hr
  have hquiet : ∀ e ∈ ([⟨.timerStart 5000, ()⟩] ++ t₁ : List TcpEvent), Quiet e.1 := by
    rw [List.singleton_append, List.forall_mem_cons]
    exact ⟨trivial,
      (calls_loop (calls_waitConnected (fun _ => trivial) trivial trivial) n _).forall_mem hl⟩
  have hwait := always_quiet hh hquiet
  rw [← List.append_assoc [_] t₁ t₂, ← List.append_assoc h]
  cases y with
  | none =>
    obtain ⟨rfl, -⟩ := hr
    rwa [List.append_nil]
  | some y =>
    dsimp only at hr
    split at hr
    · exact transmit_writes hwait (by rw [chunks_append, hnone, chunks_quiet hquiet]; rfl) hr
    · obtain ⟨rfl, -⟩ := hr
      rwa [List.append_nil]

theorem sendMessage_writes {n : Nat} {r : Option Int} (hr : Runs (sendMessage msg n) t r) :
    Always (Writes msg) t := by
  have hheader : ∀ e, Always (Writes msg) (header e) := by
    intro e
    apply Always.of_forall
    intro x hx pre
    apply writes_quiet
    simp only [header, List.mem_cons, List.not_mem_nil, or_false] at hx
    obtain rfl | rfl | rfl | rfl := hx <;> trivial
  cases sendMessage_cases hr with
  | noPcb => exact always_singleton.mpr trivial
  | noConnect => exact hheader _
  | unfinished hu => exact exchange_writes (hheader .ok) rfl hu
  | closed hu => exact always_quiet (exchange_writes (hheader .ok) rfl hu) (by simp [Quiet])
  | aborted hu => exact always_quiet (exchange_writes (hheader .ok) rfl hu) (by simp [Quiet])

end Queue

section Connection

theorem handleEvents_connected {es : List StackEvent} (hr : Runs (handleEvents c es) t c') :
    c'.tResult = c.tResult ∧ (c'.uiIsConnected = c.uiIsConnected ∨ .connected .ok ∈ es) := by
  induction es generalizing c t with
  | nil =>
    obtain ⟨rfl, rfl⟩ := hr
    exact ⟨rfl, .inl rfl⟩
  | cons e es ih =>
    cases e with
    | connected err =>
      obtain ⟨hres, hcon⟩ := ih hr
      by_cases herr : err = .ok
      · subst err
        exact ⟨hres, .inr List.mem_cons_self⟩
      · simp only [sendMessageConnectCallback, herr, ↓reduceIte] at hres hcon
        exact ⟨hres, hcon.imp_right (List.mem_cons_of_mem _)⟩
    | freed =>
      obtain ⟨hres, hcon⟩ := ih hr
      exact ⟨hres, hcon.imp_right (List.mem_cons_of_mem _)⟩
    | acked k =>
      simp only [handleEvents, sendMessageSentCallback, runs_bind, runs_perform, runs_pure] at hr
      obtain ⟨_, _, t₂, rfl, ⟨_, _, _, rfl, rfl, rfl, rfl⟩, hr⟩ := hr
      obtain ⟨hres, hcon⟩ := ih hr
      exact ⟨hres, hcon.imp_right (List.mem_cons_of_mem _)⟩

theorem Connected.append_right (hh : Connected h) (t : List TcpEvent) : Connected (h ++ t) := by
  obtain ⟨es, hes, hcon⟩ := hh
  exact ⟨es, List.mem_append_left _ hes, hcon⟩

/-- While `sendMessage` waits for the connection: it is marked as connected
only if the callback was called. -/
def Connecting (c : CallbackData) (h : List TcpEvent) : Prop :=
  c.tResult = .ok ∧ (c.uiIsConnected = 0 ∨ Connected h)

theorem Connecting.poll (hc : Connecting c h) (hr : Runs (poll c) t c') : Connecting c' (h ++ t) := by
  obtain ⟨hres, hcon⟩ := hc
  simp only [SendMessage.poll, runs_bind, runs_perform] at hr
  obtain ⟨es, _, u, rfl, rfl, hr⟩ := hr
  obtain ⟨hres', hcon'⟩ := handleEvents_connected hr
  refine ⟨hres'.trans hres, ?_⟩
  obtain hsame | hmem := hcon'
  · rw [hsame]
    exact hcon.imp_right fun hcon => hcon.append_right _
  · exact .inr ⟨es, by simp, hmem⟩

theorem Connecting.append_right (hc : Connecting c h) (t : List TcpEvent) : Connecting c (h ++ t) :=
  ⟨hc.1, hc.2.imp_right fun hcon => hcon.append_right t⟩

theorem waitConnected_connected {n : Nat} {r : Option (ErrT × CallbackData)} (hc : Connecting c h)
    (hr : Runs (loop waitConnected n c) t r) :
    ∀ e c', r = some (e, c') → c'.tResult = .ok ∧ (e = .ok → Connected (h ++ t)) := by
  refine loop_rule Connecting (fun r h => ∀ e c', r = some (e, c') → c'.tResult = .ok ∧ (e = .ok → Connected h))
    (by simp) ?_ ?_ hc hr
  · intro s h t s' hs hr
    cases waitConnected_cases hr with
    | polled ht =>
      rw [← List.append_assoc]
      exact (hs.poll ht).append_right _
  · intro s h t b hs hr e c' hb
    obtain rfl := Option.some.inj hb
    cases waitConnected_cases hr with
    | done hdone =>
      rw [List.append_nil]
      obtain ⟨hres, hcon⟩ := hs
      exact ⟨hres, fun _ => hcon.resolve_left fun hno => hdone ⟨hres, hno⟩⟩
    | elapsed ht => exact ⟨(hs.poll ht).1, by simp⟩

theorem exchange_ok {n : Nat} (hr : Runs (exchange msg n) t (some .ok)) :
    Connected t ∧ queued t = msg.sizMessage ∧ msg.sizMessage ≤ acked t := by
  simp only [exchange, runs_bind, runs_perform] at hr
  obtain ⟨_, _, _, rfl, rfl, y, t₁, t₂, rfl, hl, hr⟩ := hr
  have hwait := waitConnected_counts (h := [⟨.timerStart 5000, ()⟩]) ⟨Nat.zero_le _, rfl⟩ hl
  have hcon := waitConnected_connected (h := [⟨.timerStart 5000, ()⟩]) ⟨rfl, .inl rfl⟩ hl
  rw [← List.append_assoc]
  cases y with
  | none => cases hr.2
  | some y =>
    obtain ⟨ey, cy⟩ := y
    obtain ⟨hres, hcon⟩ := hcon ey cy rfl
    dsimp only at hr
    by_cases hey : ey = .ok
    · rw [if_pos ⟨hey, hres⟩] at hr
      obtain ⟨-, hq, ha⟩ | ⟨hne, -⟩ := transmit_counts (hwait ey cy rfl) hr
      · exact ⟨(hcon hey).append_right _, hq, ha⟩
      · exact absurd rfl hne
    · rw [if_neg (fun h => hey h.1)] at hr
      obtain rfl := Option.some.inj hr.2
      exact absurd rfl hey

end Connection

theorem queued_le_total (t : List TcpEvent) : queued t ≤ total (chunks t) := by
  induction t with
  | nil => exact le_rfl
  | cons e t ih =>
    have hcons : chunks (e :: t) = chunks [e] ++ chunks t := chunks_append [e] t
    have hone : queuedOf e ≤ total (chunks [e]) := by
      obtain ⟨c, r⟩ := e
      cases c with
      | tcpWrite pucCnt usChunk ucFlags =>
        -- only a chunk that was taken counts as queued
        cases r with
        | ok => exact le_rfl
        | _ => exact Nat.zero_le _
      | _ => exact Nat.zero_le _
    rw [queued_cons, hcons, total_append]
    exact Nat.add_le_add hone ih

/-- In every run of `sendMessage` the chunks are the message from its start on,
each in the space that the send buffer has. After the result 0 there was a
connection and the whole message was queued and acknowledged. -/
theorem message_chunks {n : Nat} {r : Option Int} (hr : Runs (sendMessage msg n) t r) :
    Always (Writes msg) t ∧
    (∀ m, bytes m (chunks t) <+: slice m msg.pvMessage msg.sizMessage) ∧
    (r = some 0 → Connected t ∧ (∀ m, bytes m (chunks t) = slice m msg.pvMessage msg.sizMessage) ∧
      queued t = msg.sizMessage ∧ msg.sizMessage ≤ acked t) := by
  have hall := sendMessage_writes hr
  refine ⟨hall, ?_, ?_⟩
  · intro m
    obtain ⟨hbytes, hle⟩ := bytes_of_always m hall
    rw [hbytes, ← take_slice m _ hle]
    exact List.take_prefix _ _
  · intro hzero
    have hdone : Connected t ∧ queued t = msg.sizMessage ∧ msg.sizMessage ≤ acked t := by
      cases sendMessage_cases hr with
      | noPcb | noConnect | unfinished | aborted => simp at hzero
      | @closed u e hu k =>
        have he : e = .ok := by
          by_contra hne
          simp [hne] at hzero
        subst he
        obtain ⟨⟨es, hes, hcon⟩, hq, ha⟩ := exchange_ok hu
        refine ⟨⟨es, by simp [hes], hcon⟩, ?_, ?_⟩
        · rw [queued_append, queued_append, hq]
          simp [queued, queuedOf]
        · rw [acked_append, acked_append]
          omega
    obtain ⟨hcon, hq, ha⟩ := hdone
    refine ⟨hcon, ?_, hq, ha⟩
    intro m
    obtain ⟨hbytes, hle⟩ := bytes_of_always m hall
    have hge := queued_le_total t
    have htotal : total (chunks t) = msg.sizMessage := by omega
    rw [hbytes, htotal]

def longMessage : Message := ⟨0x04080000, 3000, by decide⟩

theorem message_chunks_longMessage :
    let run := exec (exampleStack 9 [[.connected .ok], [.acked 2048], [.acked 952]]) (sendMessage longMessage 4) []
    run.2 = some 0 ∧ chunks run.1 = [(0x04080000, 2048), (0x04080800, 952)] ∧
      .tcpWrite 0x04080000 2048 tcpWriteFlagMore ∈ run.1.map Sigma.fst ∧
      (∀ m, bytes m (chunks run.1) = slice m 0x04080000 3000) ∧ Connected run.1 ∧ 3000 ≤ acked run.1 := by
  intro run
  have hzero : run.2 = some 0 := by decide
  obtain ⟨-, -, hdone⟩ := message_chunks
    (exec_runs (exampleStack 9 [[.connected .ok], [.acked 2048], [.acked 952]]) (sendMessage longMessage 4) [])
  obtain ⟨hcon, hbytes, -, ha⟩ := hdone hzero
  exact ⟨hzero, by decide, by decide, hbytes, hcon, ha⟩

end FlashApp.SendChunks
