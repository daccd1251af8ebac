import FlashApp.Arp
import FlashApp.Machine

namespace FlashApp.Arp

open Bytes Eth Interaction

inductive Op where
  | sendIpv4Packet (ptPkt sizPacket ulDstIp : Nat)
  | processPacket (ptEthPkt : Frame) (sizPacket : Nat)
  | timer
  | options (tEthernet : Ethernet)

/-- A call into the layer, with the tables before and after it and the calls
it made itself. -/
structure Label where
  pre : Layer
  op : Op
  trace : List ArpEvent
  post : Layer

/-- The options can change at any time. -/
inductive Step : Layer → Label → Layer → Prop
  | sendIpv4Packet {s s' : Layer} {ptPkt siz ulDstIp : Nat} {t : List ArpEvent}
      (hr : Runs (arpSendIpv4Packet s ptPkt siz ulDstIp) t s') :
      Step s ⟨s, .sendIpv4Packet ptPkt siz ulDstIp, t, s'⟩ s'
  | processPacket {s s' : Layer} {f : Frame} {siz : Nat} {t : List ArpEvent}
      (hr : Runs (arpProcessPacket s f siz) t s') : Step s ⟨s, .processPacket f siz, t, s'⟩ s'
  | timer {s s' : Layer} {t : List ArpEvent} (hr : Runs (arpTimer s) t s') : Step s ⟨s, .timer, t, s'⟩ s'
  | options {s : Layer} {o : Ethernet} : Step s ⟨s, .options o, [], { s with tEthernet := o }⟩ { s with tEthernet := o }

def Init (s : Layer) : Prop := ∃ s₀, s = arpInit s₀

structure Aged (e e' : CacheEntry) : Prop where
  tState : e'.tState = e.tState
  ulIp : e'.ulIp = e.ulIp
  tMac : e'.tMac = e.tMac
  iAge : 0 ≤ e.iAge → 0 ≤ e'.iAge

def Waits (q : Queue) (ulIp : Nat) (i : Fin 8) : Bool := (q i).sizPacket ≠ 0 ∧ (q i).ulIp = ulIp

/-- The queue entries with a packet for the address. -/
def waiting (q : Queue) (ulIp : Nat) : List (Fin 8) := (List.finRange 8).filter (Waits q ulIp)

def drained (q : Queue) (ulIp : Nat) : Queue := fun i =>
  if Waits q ulIp i then { q i with sizPacket := 0 } else q i

/-- The frame is an ARP reply to the own address, from `ulIp` at `tMac`. -/
structure ReplyFor (o : Ethernet) (f : Frame) (siz ulIp : Nat) (tMac : List UInt8) : Prop where
  size : siz ≥ sizeofEth2Header + sizeofArpPacket
  fixedHdr : slice f tArpPkt 6 = aucArpFixedHdr
  opcode : get16 f usOpcode = arpOpcodeReply
  dstIp : get32 f ulDstIpAdr = o.ulIp
  dstMac : slice f tDstMacAdr 6 = o.aucMac
  srcIp : get32 f ulSrcIpAdr = ulIp
  srcMac : slice f tSrcMacAdr 6 = tMac

def ipSent : ArpEvent → Option (Nat × Nat × List UInt8)
  | ⟨.ethSendPacket ptPkt siz tMac uiTyp, _⟩ => if uiTyp = eth2headerTypIp then some (ptPkt, siz, tMac) else none
  | _ => none

/-- The IP packets that are handed to the driver, with their sizes and MACs. -/
def ipSends (t : List ArpEvent) : List (Nat × Nat × List UInt8) := t.filterMap ipSent

def released : ArpEvent → Option Nat
  | ⟨.ethReleasePacket ptPkt, _⟩ => some ptPkt
  | _ => none

def releases (t : List ArpEvent) : List Nat := t.filterMap released

/-- Everything that `arp_send_ipv4_packet` can do. -/
inductive Sends (s : Layer) (ptPkt siz ulIp : Nat) : List ArpEvent → Layer → Prop
  | group {tMac : List UInt8} {t : List ArpEvent} (hg : groupMac ulIp = some tMac)
      (ht : ipSends t = [(ptPkt, siz, tMac)]) (hrel : releases t = []) : Sends s ptPkt siz ulIp t s
  | cached {i : Fin 8} {c : Cache} {t : List ArpEvent} (hg : groupMac ulIp = none)
      (hst : (s.auiArpCache i).tState = .valid) (hip : (s.auiArpCache i).ulIp = ulIp)
      (hc : ∀ j, Aged (s.auiArpCache j) (c j)) (ht : ipSends t = [(ptPkt, siz, (s.auiArpCache i).tMac)])
      (hrel : releases t = []) : Sends s ptPkt siz ulIp t { s with auiArpCache := c }
  | joins {i : Fin 8} {c : Cache} (hg : groupMac ulIp = none)
      (hst : (s.auiArpCache i).tState = .requesting) (hip : (s.auiArpCache i).ulIp = ulIp)
      (hc : ∀ j, Aged (s.auiArpCache j) (c j)) :
      Sends s ptPkt siz ulIp []
        { s with
          auiArpCache := c
          atPacketQueue := (arpAddWaitingPacket s.atPacketQueue ptPkt siz ulIp).1 }
  | asks {j : Fin 8} {c : Cache} {e : CacheEntry} {t : List ArpEvent} (hg : groupMac ulIp = none)
      (hnone : ∀ i, (s.auiArpCache i).tState ≠ .unused → (s.auiArpCache i).ulIp ≠ ulIp)
      (hfree : (s.atPacketQueue j).sizPacket = 0) (hc : ∀ i, Aged (s.auiArpCache i) (c i))
      (he : e.tState = .requesting ∧ e.ulIp = ulIp ∧ e.iAge = 0) (ht : ipSends t = [])
      (hrel : releases t = []) :
      Sends s ptPkt siz ulIp t
        { s with
          auiArpCache := Function.update c (freeEntry c) e
          atPacketQueue := Function.update s.atPacketQueue j ⟨siz, ulIp, ptPkt⟩ }
  | full {c : Cache} (hg : groupMac ulIp = none)
      (hnone : ∀ i, (s.auiArpCache i).tState ≠ .unused → (s.auiArpCache i).ulIp ≠ ulIp)
      (hfull : ∀ j, (s.atPacketQueue j).sizPacket ≠ 0) (hc : ∀ i, Aged (s.auiArpCache i) (c i)) :
      Sends s ptPkt siz ulIp [] { s with auiArpCache := c }

/-- Everything that `arp_process_packet` can do. -/
inductive Receives (s : Layer) (f : Frame) (siz : Nat) : List ArpEvent → Layer → Prop
  | ignores {c : Cache} {t : List ArpEvent}
      (hno : ∀ ulIp tMac, ReplyFor s.tEthernet f siz ulIp tMac →
        (∀ i, (s.auiArpCache i).tState ≠ .unused → (s.auiArpCache i).ulIp ≠ ulIp) ∨
          ∃ i, (s.auiArpCache i).tState = .valid ∧ (s.auiArpCache i).ulIp = ulIp)
      (hc : ∀ i, Aged (s.auiArpCache i) (c i)) (ht : ipSends t = []) (hrel : releases t = []) :
      Receives s f siz t { s with auiArpCache := c }
  | answers {i : Fin 8} {c : Cache} {e : CacheEntry} {t : List ArpEvent} {ulIp : Nat} {tMac : List UInt8}
      (hreply : ReplyFor s.tEthernet f siz ulIp tMac) (hst : (s.auiArpCache i).tState = .requesting)
      (hip : (s.auiArpCache i).ulIp = ulIp) (hc : ∀ j, Aged (s.auiArpCache j) (c j))
      (he : e.tState = .valid ∧ e.ulIp = ulIp ∧ e.tMac = tMac ∧ e.iAge = 0)
      (ht : ipSends t = (waiting s.atPacketQueue ulIp).map fun j =>
        ((s.atPacketQueue j).ptPkt, (s.atPacketQueue j).sizPacket, tMac))
      (hrel : releases t = []) :
      Receives s f siz t
        { s with auiArpCache := Function.update c i e, atPacketQueue := drained s.atPacketQueue ulIp }

/-- Everything that a round of `arp_timer` can do. -/
inductive Ticks (s : Layer) (i : Fin 8) : List ArpEvent → Layer → Prop
  | waits {e : CacheEntry} {t : List ArpEvent} (he : Aged (s.auiArpCache i) e) (ht : ipSends t = [])
      (hrel : releases t = []) : Ticks s i t { s with auiArpCache := Function.update s.auiArpCache i e }
  | givesUp {e : CacheEntry} {t : List ArpEvent} (hst : (s.auiArpCache i).tState = .requesting)
      (he : e.tState = .unused) (ht : ipSends t = [])
      (hrel : releases t = (waiting s.atPacketQueue (s.auiArpCache i).ulIp).map fun j =>
        (s.atPacketQueue j).ptPkt) :
      Ticks s i t
        { s with
          auiArpCache := Function.update s.auiArpCache i e
          atPacketQueue := drained s.atPacketQueue (s.auiArpCache i).ulIp }

variable {s s' : Layer} {t : List ArpEvent}

@[simp] theorem ipSends_nil : ipSends [] = [] := rfl

@[simp] theorem releases_nil : releases [] = [] := rfl

@[simp] theorem ipSends_append (t u : List ArpEvent) : ipSends (t ++ u) = ipSends t ++ ipSends u :=
  List.filterMap_append

@[simp] theorem releases_append (t u : List ArpEvent) : releases (t ++ u) = releases t ++ releases u :=
  List.filterMap_append

theorem Aged.refl (e : CacheEntry) : Aged e e := ⟨rfl, rfl, rfl, id⟩

theorem Aged.trans {e e' e'' : CacheEntry} (h : Aged e e') (h' : Aged e' e'') : Aged e e'' :=
  ⟨h'.tState.trans h.tState, h'.ulIp.trans h.ulIp, h'.tMac.trans h.tMac, fun h0 => h'.iAge (h.iAge h0)⟩

theorem aged_update (c : Cache) {i : Fin 8} {e : CacheEntry} (he : Aged (c i) e) (j : Fin 8) :
    Aged (c j) (Function.update c i e j) := by
  by_cases hj : j = i
  · subst hj
    simpa using he
  · simpa [hj] using Aged.refl (c j)

/-- The search changes ages only. It ends at a used entry with the address, if
there is one. -/
theorem getCacheEntryLoop_spec (ulIp : Nat) (is : List (Fin 8)) (c : Cache) :
    let r := getCacheEntryLoop ulIp is c
    (∀ i, Aged (c i) (r.1 i)) ∧
      (∀ i, r.2 = some i → (c i).tState ≠ .unused ∧ (c i).ulIp = ulIp) ∧
      (r.2 = none → ∀ i ∈ is, (c i).tState ≠ .unused → (c i).ulIp ≠ ulIp) := by
  induction is generalizing c with
  | nil => simp [getCacheEntryLoop, Aged.refl]
  | cons i is ih =>
    simp only [getCacheEntryLoop]
    split
    · rename_i hused
      split
      · rename_i hip
        refine ⟨aged_update c ⟨rfl, rfl, rfl, fun _ => le_rfl⟩, ?_, by simp⟩
        intro j hj
        obtain rfl := Option.some.inj hj
        exact ⟨hused, hip⟩
      · rename_i hip
        split
        · have hold := aged_update c (i := i) (e := { c i with iAge := (c i).iAge + 1 })
            ⟨rfl, rfl, rfl, fun h0 => by simp only; omega⟩
          obtain ⟨haged, hsome, hnone⟩ := ih (Function.update c i { c i with iAge := (c i).iAge + 1 })
          refine ⟨fun j => (hold j).trans (haged j), fun j hj => ?_, fun hn j hj hjused => ?_⟩
          · rw [← (hold j).tState, ← (hold j).ulIp]
            exact hsome j hj
          · obtain rfl | hj := List.mem_cons.mp hj
            · exact hip
            · rw [← (hold j).ulIp]
              exact hnone hn j hj ((hold j).tState ▸ hjused)
        · obtain ⟨haged, hsome, hnone⟩ := ih c
          refine ⟨haged, hsome, fun hn j hj hjused => ?_⟩
          obtain rfl | hj := List.mem_cons.mp hj
          · exact hip
          · exact hnone hn j hj hjused
    · rename_i hunused
      obtain ⟨haged, hsome, hnone⟩ := ih c
      refine ⟨haged, hsome, fun hn j hj hjused => ?_⟩
      obtain rfl | hj := List.mem_cons.mp hj
      · exact absurd hjused hunused
      · exact hnone hn j hj hjused

theorem getCacheEntry_aged (c : Cache) (ulIp : Nat) (i : Fin 8) : Aged (c i) ((arpGetCacheEntry c ulIp).1 i) :=
  (getCacheEntryLoop_spec ulIp (List.finRange 8) c).1 i

theorem getCacheEntry_some {c : Cache} {ulIp : Nat} {i : Fin 8} (h : (arpGetCacheEntry c ulIp).2 = some i) :
    (c i).tState ≠ .unused ∧ (c i).ulIp = ulIp :=
  (getCacheEntryLoop_spec ulIp (List.finRange 8) c).2.1 i h

theorem getCacheEntry_none {c : Cache} {ulIp : Nat} (h : (arpGetCacheEntry c ulIp).2 = none) (i : Fin 8) :
    (c i).tState ≠ .unused → (c i).ulIp ≠ ulIp :=
  (getCacheEntryLoop_spec ulIp (List.finRange 8) c).2.2 h i (List.mem_finRange i)

theorem waits_clear (q : Queue) (ulIp : Nat) (i j : Fin 8) :
    Waits (clear q i) ulIp j = (decide (j ≠ i) && Waits q ulIp j) := by
  by_cases hj : j = i
  · subst hj
    simp [Waits, clear]
  · simp [Waits, clear, hj]

theorem drained_clear {q : Queue} {ulIp : Nat} {i : Fin 8} (hi : Waits q ulIp i = true) :
    drained (clear q i) ulIp = drained q ulIp := by
  funext j
  simp only [drained, waits_clear]
  by_cases hj : j = i
  · subst hj
    simp [hi, clear]
  · simp [hj, clear]

/-- The loop over the waiting packets handles each of them once and stops
before it runs out of rounds. -/
theorem runs_drain {ulIp : Nat} {f : QueueEntry → ArpProg Unit} (ev : QueueEntry → ArpEvent)
    (hf : ∀ e t, Runs (f e) t () → t = [ev e]) {n : Nat} {q q' : Queue}
    (hn : (waiting q ulIp).length ≤ n) (hr : Runs (drain ulIp f n q) t q') :
    q' = drained q ulIp ∧ t = (waiting q ulIp).map fun i => ev (q i) := by
  induction n generalizing q t with
  | zero =>
    obtain ⟨rfl, rfl⟩ := hr
    have hnil : waiting q' ulIp = [] := List.eq_nil_of_length_eq_zero (Nat.le_zero.mp hn)
    refine ⟨?_, by simp [hnil]⟩
    funext i
    have hi := List.filter_eq_nil_iff.mp hnil i (List.mem_finRange i)
    simp [drained, hi]
  | succ n ih =>
    simp only [drain] at hr
    cases hget : arpGetWaitingPacket q ulIp with
    | none =>
      simp only [hget] at hr
      obtain ⟨rfl, rfl⟩ := hr
      have hall : ∀ i, Waits q' ulIp i = false := Slots.find_eq_none.mp hget
      have hnil : waiting q' ulIp = [] := by simp [waiting, hall]
      refine ⟨?_, by simp [hnil]⟩
      funext i
      simp [drained, hall i]
    | some i =>
      simp only [hget, runs_bind] at hr
      obtain ⟨⟨⟩, t₁, t₂, rfl, h₁, h₂⟩ := hr
      obtain rfl := hf _ _ h₁
      have hi : Waits q ulIp i = true := Slots.find_some hget
      have hsplit : waiting q ulIp = i :: waiting (clear q i) ulIp := by
        have hfind : Slots.find (Waits q ulIp) = some i := hget
        rw [waiting, Slots.filter_of_find hfind, waiting, funext (waits_clear q ulIp i)]
      rw [hsplit, List.length_cons] at hn
      obtain ⟨rfl, rfl⟩ := ih (by omega) h₂
      refine ⟨drained_clear hi, ?_⟩
      have hrest : ∀ j ∈ waiting (clear q i) ulIp, ev (clear q i j) = ev (q j) := by
        intro j hj
        have hw : Waits (clear q i) ulIp j = true := List.of_mem_filter hj
        rw [waits_clear, Bool.and_eq_true, decide_eq_true_eq] at hw
        rw [clear, Function.update_of_ne hw.1]
      rw [hsplit, List.map_cons, List.map_congr_left hrest]
      rfl

theorem length_waiting (q : Queue) (ulIp : Nat) : (waiting q ulIp).length ≤ 8 := by
  have hle := List.length_filter_le (Waits q ulIp) (List.finRange 8)
  rwa [List.length_finRange] at hle

theorem runs_ethSendPacket {ptPkt siz uiTyp : Nat} {tMac : List UInt8} {u : Unit} :
    Runs (ethSendPacket ptPkt siz tMac uiTyp) t u ↔ t = [⟨.ethSendPacket ptPkt siz tMac uiTyp, ()⟩] :=
  runs_perform

theorem runs_ethReleasePacket {ptPkt : Nat} {u : Unit} :
    Runs (ethReleasePacket ptPkt) t u ↔ t = [⟨.ethReleasePacket ptPkt, ()⟩] :=
  runs_perform

theorem runs_systimeGetMs {n : Nat} : Runs systimeGetMs t n ↔ t = [⟨.systimeGetMs, n⟩] := runs_perform

theorem runs_systimeHandleIsElapsed {i j : Nat} {b : Bool} :
    Runs (systimeHandleIsElapsed i j) t b ↔ t = [⟨.systimeHandleIsElapsed i j, b⟩] := runs_perform

theorem runs_processWaitingEntries {q q' : Queue} {ulIp : Nat} {tMac : List UInt8}
    (hr : Runs (arpProcessWaitingEntries q ulIp tMac) t q') :
    q' = drained q ulIp ∧
      ipSends t = (waiting q ulIp).map (fun i => ((q i).ptPkt, (q i).sizPacket, tMac)) ∧ releases t = [] := by
  obtain ⟨rfl, rfl⟩ := runs_drain
    (fun e => ⟨.ethSendPacket e.ptPkt e.sizPacket tMac eth2headerTypIp, ()⟩)
    (fun e t h => runs_ethSendPacket.mp h) (length_waiting q ulIp) hr
  refine ⟨rfl, ?_, ?_⟩
  · rw [ipSends, List.filterMap_map]
    simp [Function.comp_def, ipSent]
  · rw [releases, List.filterMap_map]
    simp [Function.comp_def, released]

theorem runs_releaseWaiting {q q' : Queue} {ulIp : Nat}
    (hr : Runs (drain ulIp (fun w => ethReleasePacket w.ptPkt) 8 q) t q') :
    q' = drained q ulIp ∧ releases t = (waiting q ulIp).map (fun i => (q i).ptPkt) ∧ ipSends t = [] := by
  obtain ⟨rfl, rfl⟩ := runs_drain (fun e => ⟨.ethReleasePacket e.ptPkt, ()⟩)
    (fun e t h => runs_ethReleasePacket.mp h) (length_waiting q ulIp) hr
  refine ⟨rfl, ?_, ?_⟩
  · rw [releases, List.filterMap_map]
    simp [Function.comp_def, released]
  · rw [ipSends, List.filterMap_map]
    simp [Function.comp_def, ipSent]

/-- The own packets of the layer are not IP packets. -/
theorem runs_sendArpPacket {uiOpcode ulIp : Nat} {o : Ethernet} {tDstMac tMac : List UInt8} {u : Unit}
    (hr : Runs (sendArpPacket uiOpcode o tDstMac ulIp tMac) t u) : ipSends t = [] ∧ releases t = [] := by
  obtain ⟨p, t', rfl, hr⟩ := hr
  cases p with
  | none =>
    obtain ⟨rfl, -⟩ := hr
    exact ⟨rfl, rfl⟩
  | some p =>
    obtain ⟨-, t'', rfl, -, t''', rfl, rfl, -⟩ := hr
    exact ⟨rfl, rfl⟩

theorem addWaitingPacket_cases (q : Queue) (ptPkt siz ulIp : Nat) :
    (∃ j, (q j).sizPacket = 0 ∧
      arpAddWaitingPacket q ptPkt siz ulIp = (Function.update q j ⟨siz, ulIp, ptPkt⟩, some j)) ∨
    ((∀ j, (q j).sizPacket ≠ 0) ∧ arpAddWaitingPacket q ptPkt siz ulIp = (q, none)) := by
  cases hfind : Slots.find fun i => decide ((q i).sizPacket = 0) with
  | some j =>
    have hj : (q j).sizPacket = 0 := of_decide_eq_true (Slots.find_some hfind)
    exact .inl ⟨j, hj, by simp only [arpAddWaitingPacket, hfind]⟩
  | none =>
    refine .inr ⟨fun j => ?_, by simp only [arpAddWaitingPacket, hfind]⟩
    exact of_decide_eq_false (Slots.find_eq_none.mp hfind j)

theorem runs_setMacRequest {c c' : Cache} {o : Ethernet} {ulIp : Nat}
    (hr : Runs (arpSetMacRequest c o ulIp) t c') :
    ∃ e : CacheEntry, (e.tState = .requesting ∧ e.ulIp = ulIp ∧ e.iAge = 0) ∧
      c' = Function.update c (freeEntry c) e ∧ ipSends t = [] ∧ releases t = [] := by
  simp only [arpSetMacRequest, runs_bind] at hr
  obtain ⟨ms, t₁, t₂, rfl, hms, rfl, rfl⟩ := hr
  obtain rfl := runs_systimeGetMs.mp hms
  exact ⟨_, ⟨rfl, rfl, rfl⟩, rfl, rfl, rfl⟩

theorem runs_sendIpv4Packet {ptPkt siz ulIp : Nat} (hr : Runs (arpSendIpv4Packet s ptPkt siz ulIp) t s') :
    Sends s ptPkt siz ulIp t s' := by
  simp only [arpSendIpv4Packet] at hr
  have hc := getCacheEntry_aged s.auiArpCache ulIp
  cases hg : groupMac ulIp with
  | some tMac =>
    simp only [hg, runs_bind] at hr
    obtain ⟨u, t₁, t₂, rfl, hsend, rfl, rfl⟩ := hr
    obtain rfl := runs_ethSendPacket.mp hsend
    exact .group hg rfl rfl
  | none =>
    simp only [hg] at hr
    cases hget : (arpGetCacheEntry s.auiArpCache ulIp).2 with
    | none =>
      have hnone := getCacheEntry_none hget
      simp only [hget] at hr
      obtain ⟨j, hfree, hadd⟩ | ⟨hfull, hadd⟩ := addWaitingPacket_cases s.atPacketQueue ptPkt siz ulIp
      · simp only [hadd, runs_bind] at hr
        obtain ⟨c, t₁, t₂, rfl, hset, u, t₃, t₄, rfl, hsend, rfl, rfl⟩ := hr
        obtain ⟨e, he, rfl, ht₁, hrel₁⟩ := runs_setMacRequest hset
        obtain ⟨ht₃, hrel₃⟩ := runs_sendArpPacket hsend
        exact .asks hg hnone hfree hc he (by simp [ht₁, ht₃]) (by simp [hrel₁, hrel₃])
      · simp only [hadd] at hr
        obtain ⟨rfl, rfl⟩ := hr
        exact .full hg hnone hfull hc
    | some i =>
      obtain ⟨hused, hip⟩ := getCacheEntry_some hget
      simp only [hget, (hc i).tState] at hr
      split at hr
      · rename_i hst
        obtain ⟨rfl, rfl⟩ := hr
        exact .joins hg hst hip hc
      · rename_i hst
        have hvalid : (s.auiArpCache i).tState = .valid := by
          cases h : (s.auiArpCache i).tState with
          | unused => exact absurd h hused
          | requesting => exact absurd h hst
          | valid => rfl
        simp only [runs_bind] at hr
        obtain ⟨u, t₁, t₂, rfl, hsend, rfl, rfl⟩ := hr
        obtain rfl := runs_ethSendPacket.mp hsend
        refine .cached hg hvalid hip hc ?_ rfl
        rw [← (hc i).tMac]
        rfl

theorem runs_processReply {f : Frame} {siz : Nat} (hsiz : siz ≥ sizeofEth2Header + sizeofArpPacket)
    (hhdr : slice f tArpPkt 6 = aucArpFixedHdr) (hop : get16 f usOpcode = arpOpcodeReply)
    (hr : Runs (arpProcessReply s f) t s') : Receives s f siz t s' := by
  simp only [arpProcessReply] at hr
  have hc := getCacheEntry_aged s.auiArpCache (get32 f ulSrcIpAdr)
  split at hr
  · rename_i hdst
    cases hget : (arpGetCacheEntry s.auiArpCache (get32 f ulSrcIpAdr)).2 with
    | none =>
      simp only [hget] at hr
      obtain ⟨rfl, rfl⟩ := hr
      refine .ignores (fun ulIp tMac hreply => .inl ?_) hc rfl rfl
      rw [← hreply.srcIp]
      exact getCacheEntry_none hget
    | some i =>
      obtain ⟨hused, hip⟩ := getCacheEntry_some hget
      simp only [hget, (hc i).tState] at hr
      split at hr
      · rename_i hst
        simp only [runs_bind] at hr
        obtain ⟨q, t₁, t₂, rfl, hq, rfl, rfl⟩ := hr
        obtain ⟨rfl, ht, hrel⟩ := runs_processWaitingEntries hq
        exact .answers ⟨hsiz, hhdr, hop, hdst.1, hdst.2, rfl, rfl⟩ hst hip hc
          ⟨rfl, (hc i).ulIp.trans hip, rfl, rfl⟩ (by simp [ht]) (by simp [hrel])
      · rename_i hst
        obtain ⟨rfl, rfl⟩ := hr
        refine .ignores (fun ulIp tMac hreply => .inr ⟨i, ?_, hip.trans hreply.srcIp⟩) hc rfl rfl
        cases h : (s.auiArpCache i).tState with
        | unused => exact absurd h hused
        | requesting => exact absurd h hst
        | valid => rfl
  · rename_i hdst
    obtain ⟨rfl, rfl⟩ := hr
    exact .ignores (fun ulIp tMac hreply => absurd ⟨hreply.dstIp, hreply.dstMac⟩ hdst)
      (fun i => .refl _) rfl rfl

theorem runs_processPacket {f : Frame} {siz : Nat} (hr : Runs (arpProcessPacket s f siz) t s') :
    Receives s f siz t s' := by
  have hne : arpOpcodeReply ≠ arpOpcodeRequest := by decide
  simp only [arpProcessPacket] at hr
  split at hr
  · rename_i hhdr
    split at hr
    · rename_i hop
      simp only [runs_bind] at hr
      obtain ⟨u, t₁, t₂, rfl, hreq, rfl, rfl⟩ := hr
      have hquiet : ipSends t₁ = [] ∧ releases t₁ = [] := by
        simp only [arpProcessRequest] at hreq
        split at hreq
        · exact runs_sendArpPacket hreq
        · obtain ⟨rfl, -⟩ := hreq
          exact ⟨rfl, rfl⟩
      exact .ignores (fun ulIp tMac hreply => absurd (hreply.opcode.symm.trans hop) hne)
        (fun i => .refl _) (by simp [hquiet.1]) (by simp [hquiet.2])
    split at hr
    · rename_i hop
      exact runs_processReply hhdr.1 hhdr.2 hop hr
    · rename_i hop
      obtain ⟨rfl, rfl⟩ := hr
      exact .ignores (fun ulIp tMac hreply => absurd hreply.opcode hop) (fun i => .refl _) rfl rfl
  · rename_i hhdr
    obtain ⟨rfl, rfl⟩ := hr
    exact .ignores (fun ulIp tMac hreply => absurd ⟨hreply.size, hreply.fixedHdr⟩ hhdr)
      (fun i => .refl _) rfl rfl

theorem ticks_refl {i : Fin 8} (ht : ipSends t = []) (hrel : releases t = []) : Ticks s i t s := by
  have h := Ticks.waits (.refl (s.auiArpCache i)) ht hrel
  rwa [Function.update_eq_self] at h

theorem runs_timerEntry {i : Fin 8} (hr : Runs (timerEntry s i) t s') : Ticks s i t s' := by
  simp only [timerEntry] at hr
  split at hr
  · rename_i hst
    simp only [runs_bind] at hr
    obtain ⟨b, t₁, t₂, rfl, hb, hr⟩ := hr
    obtain rfl := runs_systimeHandleIsElapsed.mp hb
    cases b with
    | false =>
      obtain ⟨rfl, rfl⟩ := hr
      exact ticks_refl rfl rfl
    | true =>
      simp only [↓reduceIte] at hr
      split at hr
      · simp only [runs_bind] at hr
        obtain ⟨u, t₃, t₄, rfl, hsend, ms, t₅, t₆, rfl, hms, rfl, rfl⟩ := hr
        obtain rfl := runs_systimeGetMs.mp hms
        obtain ⟨ht, hrel⟩ := runs_sendArpPacket hsend
        refine .waits ⟨rfl, rfl, rfl, id⟩ ?_ ?_
        · simp only [ipSends_append, ht]
          rfl
        · simp only [releases_append, hrel]
          rfl
      · simp only [runs_bind] at hr
        obtain ⟨q, t₃, t₄, rfl, hq, rfl, rfl⟩ := hr
        obtain ⟨rfl, hrel, ht⟩ := runs_releaseWaiting hq
        refine .givesUp hst rfl ?_ ?_
        · simp only [ipSends_append, ht]
          rfl
        · simp only [releases_append, hrel, List.append_nil]
          rfl
  · obtain ⟨rfl, rfl⟩ := hr
    exact ticks_refl rfl rfl

theorem timer_rule (Inv : List ArpEvent → Layer → Prop)
    (hstep : ∀ t s i u s', Inv t s → Ticks s i u s' → Inv (t ++ u) s') (h0 : Inv [] s)
    (hr : Runs (arpTimer s) t s') : Inv t s' := by
  have hloop : ∀ (is : List (Fin 8)) (t₀ : List ArpEvent) (s : Layer) (t : List ArpEvent),
      Inv t₀ s → Runs (timerLoop is s) t s' → Inv (t₀ ++ t) s' := by
    intro is
    induction is with
    | nil =>
      rintro t₀ s t h0 ⟨rfl, rfl⟩
      simpa using h0
    | cons i is ih =>
      intro t₀ s t h0 hr
      simp only [timerLoop, runs_bind] at hr
      obtain ⟨s₁, t₁, t₂, rfl, h₁, h₂⟩ := hr
      rw [← List.append_assoc]
      exact ih (t₀ ++ t₁) s₁ t₂ (hstep _ _ _ _ _ h0 (runs_timerEntry h₁)) h₂
  exact hloop (List.finRange 8) [] s t h0 hr

end FlashApp.Arp
