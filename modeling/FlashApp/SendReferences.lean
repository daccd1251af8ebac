import FlashApp.SendPcb

namespace FlashApp.SendReferences

open Bytes Interaction Lwip SendMessage SendRuns SendPcb

/-- A live pcb does not refer to the frames of `sendMessage` and its caller:
no acknowledgement can come any more that would run the sent callback on its
data, and no segment points into the message. -/
structure NoReference (p : Pcb) : Prop where
  callback : p.arg = true → p.sent = true → p.queued ≤ p.acked
  message : p.queued ≤ p.acked

def GaveUp : TcpEvent → Prop
  | ⟨.timerIsElapsed, fElapsed⟩ => fElapsed = true
  | ⟨.tcpWrite _ _ _, tResult⟩ | ⟨.tcpOutput, tResult⟩ => tResult ≠ .ok
  | _ => False

/-- All that was queued is acknowledged, or lwIP has freed the pcb in a poll or
does so when it is closed or aborted. -/
def Drained (t : List TcpEvent) : Prop :=
  queued t ≤ acked t ∨ (∃ e ∈ t, Frees e) ∨ ⟨.tcpClose, (.ok, false)⟩ ∈ t ∨ ⟨.tcpAbort, ()⟩ ∈ t

variable {c c' : CallbackData} {t h : List TcpEvent}

theorem handleEvents_counts {es : List StackEvent} (hr : Runs (handleEvents c es) t c') :
    queued t = 0 ∧ acked t = 0 ∧ c'.ulSentData ≤ c.ulSentData + (es.map ackedEvent).sum := by
  induction es generalizing c t with
  | nil =>
    obtain ⟨rfl, rfl⟩ := hr
    exact ⟨rfl, rfl, by simp⟩
  | cons e es ih =>
    rw [List.map_cons, List.sum_cons]
    cases e with
    | connected err =>
      obtain ⟨hq, ha, hc⟩ := ih hr
      have hsent : (sendMessageConnectCallback c err).ulSentData = c.ulSentData := by
        unfold sendMessageConnectCallback
        split <;> rfl
      exact ⟨hq, ha, by rw [hsent] at hc; omega⟩
    | freed =>
      obtain ⟨hq, ha, hc⟩ := ih hr
      exact ⟨hq, ha, by omega⟩
    | acked k =>
      simp only [handleEvents, sendMessageSentCallback, runs_bind, runs_perform, runs_pure] at hr
      obtain ⟨_, _, t₂, rfl, ⟨_, _, _, rfl, rfl, rfl, rfl⟩, hr⟩ := hr
      obtain ⟨hq, ha, hc⟩ := ih hr
      have hle : add32 c.ulSentData k ≤ c.ulSentData + k := Nat.mod_le _ _
      rw [queued_append, acked_append, hq, ha]
      refine ⟨rfl, rfl, ?_⟩
      simp only [ackedEvent]
      dsimp only at hc
      omega

theorem poll_counts (hr : Runs (poll c) t c') :
    queued t = 0 ∧ c'.ulSentData ≤ c.ulSentData + acked t := by
  simp only [poll, runs_bind, runs_perform] at hr
  obtain ⟨es, _, u, rfl, rfl, hr⟩ := hr
  obtain ⟨hq, ha, hc⟩ := handleEvents_counts hr
  rw [List.singleton_append, queued_cons, acked_cons, hq, ha]
  exact ⟨rfl, hc⟩

/-- What the callbacks have counted is acknowledged, and nothing is queued. -/
def Waiting (c : CallbackData) (h : List TcpEvent) : Prop :=
  c.ulSentData ≤ acked h ∧ queued h = 0

theorem Waiting.poll (hw : Waiting c h) (hr : Runs (poll c) t c') : Waiting c' (h ++ t) := by
  obtain ⟨ha, hq⟩ := hw
  obtain ⟨hq', hc⟩ := poll_counts hr
  refine ⟨?_, by rw [queued_append, hq, hq']⟩
  rw [acked_append]
  omega

theorem waitConnected_counts {n : Nat} {r : Option (ErrT × CallbackData)} (hc : Waiting c h)
    (hr : Runs (loop waitConnected n c) t r) :
    ∀ e c', r = some (e, c') → Waiting c' (h ++ t) := by
  have hround : ∀ {c c' : CallbackData} {h t : List TcpEvent} (b : Bool), Waiting c h →
      Runs (SendMessage.poll c) t c' → Waiting c' (h ++ (t ++ [elapsedEvent b])) := by
    intro c c' h t b hw hp
    obtain ⟨ha, hq⟩ := hw.poll hp
    rw [← List.append_assoc, Waiting, acked_append, queued_append, hq]
    exact ⟨ha, rfl⟩
  refine loop_rule Waiting (fun r h => ∀ e c', r = some (e, c') → Waiting c' h) (by simp) ?_ ?_ hc hr
  · intro s h t s' hs hr
    cases waitConnected_cases hr with
    | polled ht => exact hround false hs ht
  · intro s h t b hs hr e c' hb
    obtain rfl := Option.some.inj hb
    cases waitConnected_cases hr with
    | done =>
      rw [List.append_nil]
      exact hs
    | elapsed ht => exact hround true hs ht

/-- While the message is queued, the bytes queued are those in front of the
position in the message. -/
structure Queueing (msg : Message) (s : Nat × CallbackData) (h : List TcpEvent) : Prop where
  sent_le : s.2.ulSentData ≤ acked h
  cnt_eq : s.1 = msg.pvMessage + queued h
  queued_le : queued h ≤ msg.sizMessage

theorem nextChunk_le (k left : Nat) : (nextChunk k left).1 ≤ left := by
  unfold nextChunk
  split
  · exact Nat.mod_le _ _
  · dsimp only
    omega

theorem chunkRun_counts {msg : Message} {cnt cnt' : Nat} {e : ErrT}
    (hcnt : cnt ≤ msg.pvMessage + msg.sizMessage)
    (hr : ChunkRun cnt (msg.pvMessage + msg.sizMessage) t (e, cnt')) :
    acked t = 0 ∧ cnt' = cnt + queued t ∧ cnt' ≤ msg.pvMessage + msg.sizMessage ∧
      (e = .ok ∨ ∃ x ∈ t, GaveUp x) := by
  have hfits := msg.fits
  cases hr with
  | full => exact ⟨rfl, rfl, hcnt, .inl rfl⟩
  | @written k hk chunk hchunk =>
    have hle := nextChunk_le k.toNat (sub32 (msg.pvMessage + msg.sizMessage) cnt)
    rw [hchunk, sub32_of_le hcnt hfits] at hle
    have hadd : add32 cnt chunk.1 = cnt + chunk.1 := add32_of_lt (by omega)
    refine ⟨rfl, ?_, by omega, .inl rfl⟩
    simp [queued, queuedOf, hadd]
  | @failed k hk chunk hchunk _ he =>
    refine ⟨rfl, ?_, hcnt, .inr ⟨⟨.tcpWrite cnt chunk.1 chunk.2, e⟩, by simp, he⟩⟩
    cases e with
    | ok => exact absurd rfl he
    | _ => rfl

/-- After the message was queued, either something went wrong or all of it is
in the hands of lwIP. -/
theorem queueMessage_counts {msg : Message} {n : Nat} {s : Nat × CallbackData}
    {r : Option (ErrT × CallbackData)} (hs : Queueing msg s h)
    (hr : Runs (loop (queueMessage (msg.pvMessage + msg.sizMessage)) n s) t r) :
    ∀ e c', r = some (e, c') → c'.ulSentData ≤ acked (h ++ t) ∧
      (e = .ok ∧ queued (h ++ t) = msg.sizMessage ∨ e ≠ .ok ∧ ∃ x ∈ h ++ t, GaveUp x) := by
  refine loop_rule (Queueing msg) (fun r h => ∀ e c', r = some (e, c') → c'.ulSentData ≤ acked h ∧
    (e = .ok ∧ queued h = msg.sizMessage ∨ e ≠ .ok ∧ ∃ x ∈ h, GaveUp x)) (by simp) ?_ ?_ hs hr
  · intro s h t s' hs hr
    obtain ⟨hsent, hcnt, hle⟩ := hs
    cases queueMessage_cases hr with
    | polled hlt ht hu =>
      obtain ⟨ha, hcnt', hle', -⟩ := chunkRun_counts (by omega) ht
      obtain ⟨hq, hc⟩ := poll_counts hu
      refine ⟨?_, ?_, ?_⟩
      · simp only [acked_append, acked_cons, ackedOf, ha]
        omega
      · simp only [queued_append, queued_cons, queuedOf, hq]
        omega
      · simp only [queued_append, queued_cons, queuedOf, hq]
        omega
  · intro s h t b hs hr e c' hb
    obtain rfl := Option.some.inj hb
    obtain ⟨hsent, hcnt, hle⟩ := hs
    cases queueMessage_cases hr with
    | done hlt =>
      rw [List.append_nil]
      exact ⟨hsent, .inl ⟨rfl, by omega⟩⟩
    | elapsed hlt ht =>
      obtain ⟨ha, -, -, -⟩ := chunkRun_counts (by omega) ht
      refine ⟨?_, .inr ⟨by decide, elapsedEvent true, by simp, rfl⟩⟩
      simp only [acked_append, acked_cons, ackedOf, ha]
      omega
    | failed hlt ht he =>
      obtain ⟨ha, -, -, hgave⟩ := chunkRun_counts (by omega) ht
      obtain ⟨x, hx, hgave⟩ := hgave.resolve_left he
      refine ⟨?_, .inr ⟨he, x, by simp [hx], hgave⟩⟩
      rw [acked_append]
      omega

theorem pushMessage_counts {siz n q : Nat} {r : Option ErrT}
    (hc : c.ulSentData ≤ acked h ∧ queued h = q)
    (hr : Runs (loop (pushMessage siz) n c) t r) :
    ∀ e, r = some e → queued (h ++ t) = q ∧
      (e = .ok ∧ siz ≤ acked (h ++ t) ∨ e ≠ .ok ∧ ∃ x ∈ h ++ t, GaveUp x) := by
  refine loop_rule (fun c h => c.ulSentData ≤ acked h ∧ queued h = q) (fun r h => ∀ e, r = some e →
    queued h = q ∧ (e = .ok ∧ siz ≤ acked h ∨ e ≠ .ok ∧ ∃ x ∈ h, GaveUp x)) (by simp) ?_ ?_ hc hr
  · rintro s h t s' ⟨hsent, hqueued⟩ hr
    cases pushMessage_cases hr with
    | polled ht =>
      obtain ⟨hq, hc⟩ := poll_counts ht
      simp only [acked_append, queued_append, acked_cons, queued_cons, ackedOf, queuedOf, hq]
      omega
  · rintro s h t b ⟨hsent, hqueued⟩ hr e hb
    obtain rfl := Option.some.inj hb
    cases pushMessage_cases hr with
    | done hdone =>
      rw [List.append_nil]
      exact ⟨hqueued, .inl ⟨rfl, by omega⟩⟩
    | elapsed =>
      refine ⟨?_, .inr ⟨by decide, elapsedEvent true, by simp, rfl⟩⟩
      rw [queued_append, hqueued]
      rfl

theorem transmit_counts {msg : Message} {n : Nat} {e : ErrT} (hc : Waiting c h)
    (hr : Runs (transmit msg c n) t (some e)) :
    (e = .ok ∧ queued (h ++ t) = msg.sizMessage ∧ msg.sizMessage ≤ acked (h ++ t)) ∨
      e ≠ .ok ∧ ∃ x ∈ h ++ t, GaveUp x := by
  simp only [transmit, runs_bind, runs_perform, add32_of_lt msg.fits] at hr
  obtain ⟨_, _, _, rfl, rfl, y, t₁, t₂, rfl, hl, hr⟩ := hr
  obtain ⟨ha, hq⟩ := hc
  have hstart : Queueing msg (msg.pvMessage, { c with ulChunkTransmitTimeoutInMs := 10000 })
      (h ++ [⟨.timerStart 10000, ()⟩]) := by
    refine ⟨?_, ?_, ?_⟩
    · rw [acked_append]
      exact Nat.le_add_right_of_le ha
    · rw [queued_append, hq]
      rfl
    · rw [queued_append, hq]
      exact Nat.zero_le _
  have hqueue := queueMessage_counts hstart hl
  rw [← List.append_assoc, ← List.append_assoc]
  cases y with
  | none => cases hr.2
  | some y =>
    obtain ⟨ey, cy⟩ := y
    obtain ⟨hsent, hok⟩ := hqueue ey cy rfl
    obtain ⟨hok, hall⟩ | ⟨hne, x, hx, hgave⟩ := hok
    · simp only [hok, ↓reduceIte, runs_bind, runs_perform] at hr
      obtain ⟨eo, _, t₃, rfl, rfl, hr⟩ := hr
      by_cases heo : eo = .ok
      · subst eo
        have hpush := pushMessage_counts (h := h ++ [⟨.timerStart 10000, ()⟩] ++ t₁ ++ [⟨.tcpOutput, .ok⟩])
          (q := msg.sizMessage)
          ⟨by rw [acked_append]; exact Nat.le_add_right_of_le hsent, by rw [queued_append, hall]; rfl⟩ hr
        obtain ⟨hq', hsiz⟩ := hpush e rfl
        rw [List.append_assoc (h ++ _ ++ t₁)] at hq' hsiz
        exact hsiz.imp_left fun hsiz => ⟨hsiz.1, hq', hsiz.2⟩
      · rw [if_neg heo] at hr
        obtain rfl := Option.some.inj hr.2
        exact .inr ⟨heo, ⟨.tcpOutput, e⟩, by simp, heo⟩
    · simp only [hne, ↓reduceIte, runs_pure] at hr
      obtain ⟨rfl, hr⟩ := hr
      obtain rfl := Option.some.inj hr
      exact .inr ⟨hne, x, List.mem_append_left _ hx, hgave⟩

/-- All exits without a timeout or an error leave nothing unacknowledged. -/
theorem exchange_counts {msg : Message} {n : Nat} {e : ErrT} (hr : Runs (exchange msg n) t (some e)) :
    queued t ≤ acked t ∨ ∃ x ∈ t, GaveUp x := by
  simp only [exchange, runs_bind, runs_perform] at hr
  obtain ⟨_, _, _, rfl, rfl, y, t₁, t₂, rfl, hl, hr⟩ := hr
  have hwait := waitConnected_counts (h := [⟨.timerStart 5000, ()⟩]) ⟨Nat.zero_le _, rfl⟩ hl
  rw [← List.append_assoc]
  cases y with
  | none => cases hr.2
  | some y =>
    obtain ⟨ey, cy⟩ := y
    dsimp only at hr
    have hw := hwait ey cy rfl
    by_cases hy : ey = .ok ∧ cy.tResult = .ok
    · rw [if_pos hy] at hr
      obtain ⟨-, hq, ha⟩ | ⟨-, hgave⟩ := transmit_counts hw hr
      · exact .inl (hq.trans_le ha)
      · exact .inr hgave
    · rw [if_neg hy] at hr
      obtain ⟨rfl, -⟩ := hr
      rw [List.append_nil, hw.2]
      exact .inl (Nat.zero_le _)

theorem drained_kept {u : List TcpEvent} (hu : ∀ e ∈ u, Phase e.1) (hf : ∀ e ∈ u, ¬ Frees e) :
    Drained (header .ok ++ u ++ [⟨.tcpClose, (.ok, true)⟩]) ↔ queued u ≤ acked u := by
  have hcount : queued (header .ok ++ u ++ [⟨.tcpClose, (.ok, true)⟩]) = queued u ∧
      acked (header .ok ++ u ++ [⟨.tcpClose, (.ok, true)⟩]) = acked u := by
    simp [queued, queuedOf, acked, ackedOf]
  rw [Drained, hcount.1, hcount.2]
  constructor
  · rintro (h | ⟨e, he, hfe⟩ | h | h)
    · exact h
    · have hund := (undisturbed_iff (v := [⟨.tcpClose, (.ok, true)⟩]) hu (by simp [Ending])).mpr hf
      obtain hmem | ⟨-, hno⟩ := hund
      · simp at hmem
        exact (hu _ hmem).elim
      · exact absurd hfe (hno e he)
    · simp at h
      exact (hu _ h).elim
    · simp at h
      exact (hu _ h).elim
  · exact .inl

/-- After the return of `sendMessage` nothing in lwIP refers to its frame or
to the message exactly if it has not given up with data in flight. -/
theorem noReference_iff {msg : Message} {n : Nat} {i : Int}
    (hr : Runs (sendMessage msg n) t (some i)) :
    (∀ p, stack t = some p → NoReference p) ↔ ((∃ e ∈ t, GaveUp e) → Drained t) := by
  generalize hri : some i = r at hr
  cases sendMessage_cases hr with
  | noPcb =>
    refine iff_of_true (fun p hp => by cases hp) ?_
    simp [GaveUp]
  | noConnect =>
    refine iff_of_true ?_ (by simp [GaveUp])
    intro p hp
    obtain rfl := Option.some.inj hp
    exact ⟨fun _ _ => le_rfl, le_rfl⟩
  | unfinished => cases hri
  | @closed u e hu k =>
    have hp := (calls_exchange msg n).forall_mem hu
    by_cases hf : ∃ x ∈ u, Frees x
    · refine iff_of_true ?_ fun _ => ?_
      · rw [stack_append, stack_header_freed hp hf]
        cases k <;> simp [stackStep]
      · obtain ⟨x, hx, hfx⟩ := hf
        exact .inr (.inl ⟨x, by simp [hx], hfx⟩)
    · have hf' : ∀ x ∈ u, ¬ Frees x := fun x hx hfx => hf ⟨x, hx, hfx⟩
      rw [stack_append, stack_header hp hf']
      cases k with
      | false =>
        refine iff_of_true ?_ fun _ => .inr (.inr (.inl (by simp)))
        simp [stackStep]
      | true =>
        rw [drained_kept hp hf']
        constructor
        · intro h _
          exact (h _ rfl).message
        · intro h p hp
          have hle : queued u ≤ acked u := by
            obtain hle | ⟨x, hx, hg⟩ := exchange_counts hu
            · exact hle
            · exact h ⟨x, by simp [hx], hg⟩
          obtain rfl := Option.some.inj hp
          exact ⟨fun _ _ => hle, hle⟩
  | aborted hu he k =>
    refine iff_of_true ?_ fun _ => .inr (.inr (.inr (by simp)))
    rw [stack_append]
    simp [stackStep]

theorem noReference_iff_exampleMessage :
    let run := exec (exampleStack 9 [[.connected .ok], [.acked 10]]) (sendMessage exampleMessage 3) []
    run.2 = some 0 ∧
      ((∀ p, stack run.1 = some p → NoReference p) ↔ ((∃ e ∈ run.1, GaveUp e) → Drained run.1)) :=
  ⟨by decide, noReference_iff (i := 0) (exec_runs _ _ [])⟩

/-- The peer does not acknowledge the message in time. -/
theorem not_noReference_of_timeout :
    ¬ ∀ t i, Runs (sendMessage exampleMessage 3) t (some i) →
      ∀ p, stack t = some p → NoReference p := by
  intro h
  have hp := h _ (-1) (exec_runs (exampleStack 1 [[.connected .ok]]) _ []) ⟨true, true, 10, 0⟩ rfl
  exact absurd hp.message (by decide)

end FlashApp.SendReferences
