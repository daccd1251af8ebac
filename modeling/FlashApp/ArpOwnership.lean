import FlashApp.ArpInvariant

namespace FlashApp.Arp

open Bytes Eth Interaction Machine

def Label.hands (l : Label) (ptPkt : Nat) : Bool :=
  match l.op with
  | .sendIpv4Packet p _ _ => p = ptPkt
  | _ => false

/-- How often a packet was handed to `arp_send_ipv4_packet`. A frame can be
handed over again after it went back to the driver. -/
def handed (h : List Label) (ptPkt : Nat) : Nat := h.countP (·.hands ptPkt)

def sentIn (t : List ArpEvent) (ptPkt : Nat) : Nat := (ipSends t).countP (·.1 = ptPkt)

def releasedIn (t : List ArpEvent) (ptPkt : Nat) : Nat := (releases t).countP (· = ptPkt)

def timesSent (h : List Label) (ptPkt : Nat) : Nat := (h.map fun l => sentIn l.trace ptPkt).sum

def timesReleased (h : List Label) (ptPkt : Nat) : Nat := (h.map fun l => releasedIn l.trace ptPkt).sum

def isHeld (ptPkt : Nat) (e : QueueEntry) : Bool := e.sizPacket ≠ 0 ∧ e.ptPkt = ptPkt

def held (q : Queue) (ptPkt : Nat) : Nat := (List.finRange 8).countP fun i => isHeld ptPkt (q i)

/-- A packet that has to wait finds a place in the queue. -/
def HasRoom (s : Layer) (l : Label) : Prop :=
  ∀ ptPkt siz ulIp, l.op = .sendIpv4Packet ptPkt siz ulIp → groupMac ulIp = none →
    (∀ i, (s.auiArpCache i).tState = .valid → (s.auiArpCache i).ulIp ≠ ulIp) →
      siz ≠ 0 ∧ ∃ j, (s.atPacketQueue j).sizPacket = 0

variable {s s' : Layer} {q : Queue} {t : List ArpEvent} {p : Nat}

theorem held_update {j : Fin 8} (hfree : (q j).sizPacket = 0) {siz ulIp ptPkt : Nat} (hsiz : siz ≠ 0) :
    held (Function.update q j ⟨siz, ulIp, ptPkt⟩) p = held q p + if ptPkt = p then 1 else 0 := by
  rw [held, Slots.countP_update (isHeld p) (by simp [isHeld, hfree]) _ (List.nodup_finRange 8), held]
  simp [isHeld, hsiz]

theorem held_drained (q : Queue) (ulIp : Nat) :
    held (drained q ulIp) p + (waiting q ulIp).countP (fun i => (q i).ptPkt = p) = held q p := by
  have hsplit : ∀ l : List (Fin 8), l.countP (fun i => isHeld p (drained q ulIp i)) +
      (l.filter (Waits q ulIp)).countP (fun i => (q i).ptPkt = p) = l.countP fun i => isHeld p (q i) := by
    intro l
    induction l with
    | nil => rfl
    | cons i l ih =>
      rw [List.countP_cons, List.countP_cons, ← ih]
      cases hw : Waits q ulIp i with
      | true =>
        have hne : (q i).sizPacket ≠ 0 := (of_decide_eq_true hw).1
        rw [List.filter_cons_of_pos hw, List.countP_cons]
        simp only [isHeld, drained, hw, hne, ↓reduceIte, ne_eq, not_true_eq_false, not_false_eq_true,
          false_and, true_and, decide_false, Bool.false_eq_true, decide_eq_true_eq]
        omega
      | false =>
        rw [List.filter_cons_of_neg (by simp [hw]), drained_of_not_waits hw]
        omega
  exact hsplit (List.finRange 8)

/-- A step with what it gets and what it gives away. -/
def Balanced (p n : Nat) (s : Layer) (t : List ArpEvent) (s' : Layer) : Prop :=
  n + held s.atPacketQueue p = sentIn t p + releasedIn t p + held s'.atPacketQueue p

@[simp] theorem sentIn_append (t u : List ArpEvent) : sentIn (t ++ u) p = sentIn t p + sentIn u p := by
  simp [sentIn]

@[simp] theorem releasedIn_append (t u : List ArpEvent) :
    releasedIn (t ++ u) p = releasedIn t p + releasedIn u p := by
  simp [releasedIn]

theorem sentIn_eq_zero (ht : ipSends t = []) : sentIn t p = 0 := by
  simp [sentIn, ht]

theorem releasedIn_eq_zero (ht : releases t = []) : releasedIn t p = 0 := by
  simp [releasedIn, ht]

theorem sentIn_singleton {ptPkt siz : Nat} {tMac : List UInt8} (ht : ipSends t = [(ptPkt, siz, tMac)]) :
    sentIn t p = if ptPkt = p then 1 else 0 := by
  simp [sentIn, ht, List.countP_cons]

theorem balanced_sends {ptPkt siz ulIp : Nat} (hs : Sends s ptPkt siz ulIp t s')
    (hroom : groupMac ulIp = none →
      (∀ i, (s.auiArpCache i).tState = .valid → (s.auiArpCache i).ulIp ≠ ulIp) →
        siz ≠ 0 ∧ ∃ j, (s.atPacketQueue j).sizPacket = 0)
    (hi : CacheInv s.auiArpCache) : Balanced p (if ptPkt = p then 1 else 0) s t s' := by
  cases hs with
  | group hg ht hrel =>
    simp only [Balanced, sentIn_singleton ht, releasedIn_eq_zero hrel]
    omega
  | cached hg hst hip hc ht hrel =>
    simp only [Balanced, sentIn_singleton ht, releasedIn_eq_zero hrel]
    omega
  | joins hg hst hip hc =>
    obtain ⟨hsiz, k, hk⟩ := hroom hg (by
      intro i hvalid heq
      have hij := hi.distinct _ i (by simp [hst]) (by simp [hvalid]) (hip.trans heq.symm)
      rw [hij, hvalid] at hst
      cases hst)
    obtain ⟨j, hfree, hadd⟩ | ⟨hfull, -⟩ := addWaitingPacket_cases s.atPacketQueue ptPkt siz ulIp
    · rw [Balanced, hadd, held_update hfree hsiz]
      simp only [sentIn, releasedIn, ipSends_nil, releases_nil, List.countP_nil]
      omega
    · exact absurd hk (hfull k)
  | asks hg hnone hfree hc he ht hrel =>
    obtain ⟨hsiz, -⟩ := hroom hg (fun i hvalid => hnone i (by simp [hvalid]))
    simp only [Balanced, held_update hfree hsiz, sentIn_eq_zero ht, releasedIn_eq_zero hrel]
    omega
  | full hg hnone hfull hc =>
    obtain ⟨-, j, hj⟩ := hroom hg (fun i hvalid => hnone i (by simp [hvalid]))
    exact absurd hj (hfull j)

theorem balanced_receives {f : Frame} {siz : Nat} (hs : Receives s f siz t s') : Balanced p 0 s t s' := by
  cases hs with
  | ignores hno hc ht hrel => simp only [Balanced, sentIn_eq_zero ht, releasedIn_eq_zero hrel]
  | @answers i c e _ ulIp tMac hreply hst hip hc he ht hrel =>
    have hq := held_drained (p := p) s.atPacketQueue ulIp
    have hsent : sentIn t p = (waiting s.atPacketQueue ulIp).countP fun j => (s.atPacketQueue j).ptPkt = p := by
      rw [sentIn, ht, List.countP_map]
      rfl
    simp only [Balanced, hsent, releasedIn_eq_zero hrel]
    omega

theorem Balanced.ticks {s₀ : Layer} {u : List ArpEvent} {i : Fin 8} {n : Nat} (h : Balanced p n s₀ t s)
    (hs : Ticks s i u s') : Balanced p n s₀ (t ++ u) s' := by
  rw [Balanced] at h ⊢
  rw [sentIn_append, releasedIn_append]
  cases hs with
  | waits he ht hrel =>
    rw [sentIn_eq_zero ht, releasedIn_eq_zero hrel]
    exact h
  | givesUp hst he ht hrel =>
    have hq := held_drained (p := p) s.atPacketQueue (s.auiArpCache i).ulIp
    have hreleased : releasedIn u p =
        (waiting s.atPacketQueue (s.auiArpCache i).ulIp).countP fun j => (s.atPacketQueue j).ptPkt = p := by
      rw [releasedIn, hrel, List.countP_map]
      rfl
    simp only [sentIn_eq_zero ht, hreleased]
    omega

theorem balanced_step {l : Label} (hi : CacheInv s.auiArpCache) (hs : Step s l s') (hroom : HasRoom s l) :
    Balanced p (if l.hands p then 1 else 0) s l.trace s' := by
  cases hs with
  | sendIpv4Packet hr =>
    simpa [Label.hands] using balanced_sends (runs_sendIpv4Packet hr) (hroom _ _ _ rfl) hi
  | processPacket hr => exact balanced_receives (runs_processPacket hr)
  | timer hr =>
    exact timer_rule (fun t s' => Balanced p 0 s t s') (fun _ _ _ _ _ h hs => h.ticks hs)
      (by simp [Balanced, sentIn, releasedIn]) hr
  | options => simp [Balanced, Label.hands, sentIn, releasedIn]

theorem held_init (hs : Init s) : held s.atPacketQueue p = 0 := by
  obtain ⟨s₀, rfl⟩ := hs
  simp [held, isHeld, arpInit]

/-- As long as the packets that have to wait find a place in the queue, every
packet is sent, released or held, and only one of them. -/
theorem arp_packet_in_one_place {h : List Label} {s : Layer}
    (hr : Reach Init (fun s l s' => Step s l s' ∧ HasRoom s l) h s) (ptPkt : Nat) :
    handed h ptPkt = timesSent h ptPkt + timesReleased h ptPkt + held s.atPacketQueue ptPkt ∧
      (handed h ptPkt = 1 →
        (timesSent h ptPkt = 1 ∧ timesReleased h ptPkt = 0 ∧ held s.atPacketQueue ptPkt = 0) ∨
        (timesSent h ptPkt = 0 ∧ timesReleased h ptPkt = 1 ∧ held s.atPacketQueue ptPkt = 0) ∨
        (timesSent h ptPkt = 0 ∧ timesReleased h ptPkt = 0 ∧ held s.atPacketQueue ptPkt = 1)) := by
  have hcount : CacheInv s.auiArpCache ∧
      handed h ptPkt = timesSent h ptPkt + timesReleased h ptPkt + held s.atPacketQueue ptPkt := by
    apply hr.invariant (fun h s => CacheInv s.auiArpCache ∧
      handed h ptPkt = timesSent h ptPkt + timesReleased h ptPkt + held s.atPacketQueue ptPkt)
    · intro s hs
      refine ⟨cacheInv_init hs, ?_⟩
      rw [held_init hs]
      rfl
    · rintro h s l s' ⟨hi, hsum⟩ ⟨hs, hroom⟩
      have hstep := balanced_step (p := ptPkt) hi hs hroom
      rw [Balanced] at hstep
      refine ⟨hi.step hs, ?_⟩
      simp only [handed, timesSent, timesReleased, List.countP_append, List.countP_singleton, List.map_append,
        List.map_cons, List.map_nil, List.sum_append, List.sum_cons, List.sum_nil] at hsum ⊢
      omega
  refine ⟨hcount.2, fun hone => ?_⟩
  have hsum := hcount.2
  omega

def exampleSends (ulIp : Nat) : Nat → List Label × Layer
  | 0 => ([], exampleInit)
  | n + 1 =>
    let r := exampleSends ulIp n
    let q := exampleSend r.2 (0x8000 + n) 28 ulIp
    (r.1 ++ [⟨r.2, .sendIpv4Packet (0x8000 + n) 28 ulIp, q.1, q.2⟩], q.2)

theorem reach_exampleSends (ulIp n : Nat) :
    Reach Init (fun s l s' => Step s l s' ∧ l.NonZero) (exampleSends ulIp n).1 (exampleSends ulIp n).2 := by
  induction n with
  | zero => exact .init ⟨_, rfl⟩
  | succ n ih =>
    refine ih.step ⟨step_exampleSend _ (0x8000 + n) 28 ulIp, ?_⟩
    intro ptPkt ulDstIp h
    cases h

/-- The ninth packet for an address without an answer is dropped. -/
theorem full_queue_drops_packet :
    ¬ ∀ h s ptPkt, Reach Init (fun s l s' => Step s l s' ∧ l.NonZero) h s →
      handed h ptPkt = timesSent h ptPkt + timesReleased h ptPkt + held s.atPacketQueue ptPkt := by
  intro hall
  have hsum := hall _ _ 0x8008 (reach_exampleSends (ipAdr 192 168 0 1) 9)
  exact absurd hsum (by decide +kernel)

theorem arp_packet_in_one_place_waiting :
    ∃ h s, Reach Init (fun s l s' => Step s l s' ∧ HasRoom s l) h s ∧ handed h 0x8000 = 1 ∧
      timesSent h 0x8000 + timesReleased h 0x8000 + held s.atPacketQueue 0x8000 = 1 := by
  have hreach : Reach Init (fun s l s' => Step s l s' ∧ HasRoom s l)
      [⟨exampleInit, .sendIpv4Packet 0x8000 28 1, (exampleSend exampleInit 0x8000 28 1).1,
        (exampleSend exampleInit 0x8000 28 1).2⟩] (exampleSend exampleInit 0x8000 28 1).2 := by
    refine .step (.init ⟨_, rfl⟩) ⟨step_exampleSend exampleInit 0x8000 28 1, ?_⟩
    intro ptPkt siz ulIp hop _ _
    cases hop
    exact ⟨by decide, 0, rfl⟩
  have hone : handed [⟨exampleInit, .sendIpv4Packet 0x8000 28 1, (exampleSend exampleInit 0x8000 28 1).1,
      (exampleSend exampleInit 0x8000 28 1).2⟩] 0x8000 = 1 := rfl
  exact ⟨_, _, hreach, hone, (arp_packet_in_one_place hreach 0x8000).1.symm.trans hone⟩

end FlashApp.Arp
