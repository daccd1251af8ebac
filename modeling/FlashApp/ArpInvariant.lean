import FlashApp.ArpRuns
import Mathlib.Data.Fintype.EquivFin

namespace FlashApp.Arp

open Bytes Eth Interaction Machine

def Queued (q : Queue) (ulIp : Nat) : Prop := ∃ j, (q j).sizPacket ≠ 0 ∧ (q j).ulIp = ulIp

/-- The address has been asked for and has not answered yet. -/
def Requested (c : Cache) (ulIp : Nat) : Prop := ∃ i, (c i).tState = .requesting ∧ (c i).ulIp = ulIp

/-- Each address has one entry at most. -/
structure CacheInv (c : Cache) : Prop where
  distinct : ∀ i j, (c i).tState ≠ .unused → (c j).tState ≠ .unused → (c i).ulIp = (c j).ulIp → i = j
  age : ∀ i, (c i).tState ≠ .unused → 0 ≤ (c i).iAge

/-- The packets wait for exactly the addresses that are asked for. -/
structure Inv (s : Layer) : Prop where
  cache : CacheInv s.auiArpCache
  queued : ∀ ulIp, Queued s.atPacketQueue ulIp ↔ Requested s.auiArpCache ulIp

/-- The packets of the queue are still there, or they are sent or released. -/
def Settles (s : Layer) (t : List ArpEvent) (s' : Layer) : Prop :=
  ∀ j, (s.atPacketQueue j).sizPacket ≠ 0 → s'.atPacketQueue j = s.atPacketQueue j ∨
    (∃ tMac, ((s.atPacketQueue j).ptPkt, (s.atPacketQueue j).sizPacket, tMac) ∈ ipSends t) ∨
    (s.atPacketQueue j).ptPkt ∈ releases t

def Label.NonZero (l : Label) : Prop := ∀ ptPkt ulDstIp, l.op ≠ .sendIpv4Packet ptPkt 0 ulDstIp

variable {s s' : Layer} {c c' : Cache} {q : Queue} {t : List ArpEvent}

theorem CacheInv.aged (hi : CacheInv c) (hc : ∀ i, Aged (c i) (c' i)) : CacheInv c' := by
  constructor
  · intro i j
    rw [(hc i).tState, (hc j).tState, (hc i).ulIp, (hc j).ulIp]
    exact hi.distinct i j
  · intro i hused
    rw [(hc i).tState] at hused
    exact (hc i).iAge (hi.age i hused)

theorem requested_aged (hc : ∀ i, Aged (c i) (c' i)) (ulIp : Nat) : Requested c' ulIp ↔ Requested c ulIp := by
  simp only [Requested, (hc _).tState, (hc _).ulIp]

theorem CacheInv.replace (hi : CacheInv c) {i : Fin 8} {e : CacheEntry}
    (hip : e.tState ≠ .unused → ∀ j, j ≠ i → (c j).tState ≠ .unused → (c j).ulIp ≠ e.ulIp)
    (hage : e.tState ≠ .unused → 0 ≤ e.iAge) : CacheInv (Function.update c i e) := by
  constructor
  · intro j k hj hk heq
    by_cases hji : j = i
    · subst hji
      by_cases hkj : k = j
      · exact hkj.symm
      · simp only [Function.update_self, Function.update_of_ne hkj] at hj hk heq
        exact absurd heq.symm (hip hj k hkj hk)
    · by_cases hki : k = i
      · subst hki
        simp only [Function.update_self, Function.update_of_ne hji] at hj hk heq
        exact absurd heq (hip hk j hji hj)
      · simp only [Function.update_of_ne hji, Function.update_of_ne hki] at hj hk heq
        exact hi.distinct j k hj hk heq
  · intro j hj
    by_cases hji : j = i
    · subst hji
      simp only [Function.update_self] at hj ⊢
      exact hage hj
    · simp only [Function.update_of_ne hji] at hj ⊢
      exact hi.age j hj

theorem requested_update {i : Fin 8} {e : CacheEntry} (hst : (c i).tState ≠ .requesting)
    (he : e.tState = .requesting) (ulIp : Nat) :
    Requested (Function.update c i e) ulIp ↔ Requested c ulIp ∨ ulIp = e.ulIp := by
  constructor
  · rintro ⟨j, hj, hip⟩
    by_cases hji : j = i
    · subst hji
      rw [Function.update_self] at hip
      exact .inr hip.symm
    · rw [Function.update_of_ne hji] at hj hip
      exact .inl ⟨j, hj, hip⟩
  · rintro (⟨j, hj, hip⟩ | rfl)
    · have hji : j ≠ i := fun h => hst (h ▸ hj)
      refine ⟨j, ?_, ?_⟩
      · rwa [Function.update_of_ne hji]
      · rwa [Function.update_of_ne hji]
    · exact ⟨i, by rwa [Function.update_self], by rw [Function.update_self]⟩

theorem CacheInv.requested_remove (hi : CacheInv c) {i : Fin 8} {e : CacheEntry}
    (hst : (c i).tState = .requesting) (he : e.tState ≠ .requesting) (ulIp : Nat) :
    Requested (Function.update c i e) ulIp ↔ Requested c ulIp ∧ ulIp ≠ (c i).ulIp := by
  have hused : ∀ {j}, (c j).tState = .requesting → (c j).tState ≠ .unused := by
    intro j hj
    simp [hj]
  constructor
  · rintro ⟨j, hj, hip⟩
    have hji : j ≠ i := by
      rintro rfl
      rw [Function.update_self] at hj
      exact he hj
    rw [Function.update_of_ne hji] at hj hip
    refine ⟨⟨j, hj, hip⟩, fun heq => hji ?_⟩
    exact hi.distinct j i (hused hj) (hused hst) (hip.trans heq)
  · rintro ⟨⟨j, hj, hip⟩, hne⟩
    have hji : j ≠ i := by
      rintro rfl
      exact hne hip.symm
    refine ⟨j, ?_, ?_⟩
    · rwa [Function.update_of_ne hji]
    · rwa [Function.update_of_ne hji]

theorem queued_drained (q : Queue) (x ulIp : Nat) :
    Queued (drained q x) ulIp ↔ Queued q ulIp ∧ ulIp ≠ x := by
  constructor
  · rintro ⟨j, hsiz, hip⟩
    cases hw : Waits q x j with
    | true => simp [drained, hw] at hsiz
    | false =>
      simp only [drained, hw, Bool.false_eq_true, ↓reduceIte] at hsiz hip
      refine ⟨⟨j, hsiz, hip⟩, ?_⟩
      rintro rfl
      simp [Waits, hsiz, hip] at hw
  · rintro ⟨⟨j, hsiz, hip⟩, hne⟩
    have hw : Waits q x j = false := by
      simp [Waits, hip, hne]
    exact ⟨j, by simpa [drained, hw] using hsiz, by simpa [drained, hw] using hip⟩

theorem queued_update {j : Fin 8} {siz x ptPkt : Nat} (hfree : (q j).sizPacket = 0) (hsiz : siz ≠ 0)
    (ulIp : Nat) : Queued (Function.update q j ⟨siz, x, ptPkt⟩) ulIp ↔ Queued q ulIp ∨ ulIp = x := by
  constructor
  · rintro ⟨k, hk, hip⟩
    by_cases hkj : k = j
    · subst hkj
      rw [Function.update_self] at hip
      exact .inr hip.symm
    · rw [Function.update_of_ne hkj] at hk hip
      exact .inl ⟨k, hk, hip⟩
  · rintro (⟨k, hk, hip⟩ | rfl)
    · have hkj : k ≠ j := fun h => hk (h ▸ hfree)
      refine ⟨k, ?_, ?_⟩
      · rwa [Function.update_of_ne hkj]
      · rwa [Function.update_of_ne hkj]
    · exact ⟨j, by rwa [Function.update_self], by rw [Function.update_self]⟩

/-- The loop ends at an entry that is not requested, if there is one or the
loop has already found one. -/
theorem freeEntryLoop_spec (hage : ∀ i, (c i).tState = .valid → 0 ≤ (c i).iAge) (is : List (Fin 8))
    (iTopAge : Int) (ptFree : Fin 8)
    (h : (c ptFree).tState ≠ .requesting ∨ iTopAge < 0 ∧ ∃ i ∈ is, (c i).tState ≠ .requesting) :
    (c (freeEntryLoop c is iTopAge ptFree)).tState ≠ .requesting := by
  induction is generalizing iTopAge ptFree with
  | nil => simpa [freeEntryLoop] using h
  | cons i is ih =>
    simp only [freeEntryLoop]
    cases hst : (c i).tState with
    | unused => simp [hst]
    | valid =>
      simp only
      split
      · exact ih _ _ (.inl (by simp [hst]))
      · rename_i hle
        obtain hfree | ⟨hneg, -⟩ := h
        · exact ih _ _ (.inl hfree)
        · have := hage i hst
          omega
    | requesting =>
      apply ih
      obtain hfree | ⟨hneg, j, hj, hjst⟩ := h
      · exact .inl hfree
      · obtain rfl | hj := List.mem_cons.mp hj
        · exact absurd hst hjst
        · exact .inr ⟨hneg, j, hj, hjst⟩

theorem freeEntry_spec (hi : CacheInv c) (h : ∃ i, (c i).tState ≠ .requesting) :
    (c (freeEntry c)).tState ≠ .requesting := by
  obtain ⟨i, hst⟩ := h
  exact freeEntryLoop_spec (fun j hj => hi.age j (by simp [hj])) _ _ _
    (.inr ⟨by decide, i, List.mem_finRange i, hst⟩)

/-- Eight requests need eight packets in the queue, so there is an entry
without a request as long as the queue has room. -/
theorem Inv.exists_not_requesting (hi : Inv s) {j : Fin 8} (hfree : (s.atPacketQueue j).sizPacket = 0) :
    ∃ i, (s.auiArpCache i).tState ≠ .requesting := by
  by_contra hall
  simp only [not_exists, not_not] at hall
  have hpacket : ∀ i, ∃ k, (s.atPacketQueue k).sizPacket ≠ 0 ∧
      (s.atPacketQueue k).ulIp = (s.auiArpCache i).ulIp := fun i => (hi.queued _).mpr ⟨i, hall i, rfl⟩
  choose f hsiz hip using hpacket
  have hinj : Function.Injective f := by
    intro i k hik
    refine hi.cache.distinct i k (by simp [hall]) (by simp [hall]) ?_
    rw [← hip i, ← hip k, hik]
  obtain ⟨i, rfl⟩ := Finite.surjective_of_injective hinj j
  exact hsiz i hfree

theorem Inv.freeEntry_not_requesting (hi : Inv s) {j : Fin 8} (hfree : (s.atPacketQueue j).sizPacket = 0)
    (hc : ∀ i, Aged (s.auiArpCache i) (c i)) : (c (freeEntry c)).tState ≠ .requesting := by
  obtain ⟨i, hst⟩ := hi.exists_not_requesting hfree
  exact freeEntry_spec (hi.cache.aged hc) ⟨i, (hc i).tState ▸ hst⟩

theorem CacheInv.asks (hi : CacheInv c) {ulIp : Nat} {e : CacheEntry}
    (hnone : ∀ i, (c i).tState ≠ .unused → (c i).ulIp ≠ ulIp)
    (he : e.tState = .requesting ∧ e.ulIp = ulIp ∧ e.iAge = 0) (i : Fin 8) :
    CacheInv (Function.update c i e) := by
  apply hi.replace
  · intro _ j _ hused
    rw [he.2.1]
    exact hnone j hused
  · simp [he.2.2]

theorem CacheInv.renew (hi : CacheInv c) {i : Fin 8} {e : CacheEntry} (hst : (c i).tState ≠ .unused)
    (hip : e.tState ≠ .unused → e.ulIp = (c i).ulIp) (hage : e.tState ≠ .unused → 0 ≤ e.iAge) :
    CacheInv (Function.update c i e) := by
  refine hi.replace (fun he j hj hused heq => hj ?_) hage
  exact hi.distinct j i hused hst (heq.trans (hip he))

theorem CacheInv.sends (hi : CacheInv s.auiArpCache) {ptPkt siz ulIp : Nat}
    (hs : Sends s ptPkt siz ulIp t s') : CacheInv s'.auiArpCache := by
  cases hs with
  | group => exact hi
  | cached hg hst hip hc => exact hi.aged hc
  | joins hg hst hip hc => exact hi.aged hc
  | full hg hnone hfull hc => exact hi.aged hc
  | asks hg hnone hfree hc he =>
    refine (hi.aged hc).asks (fun i hused => ?_) he _
    rw [(hc i).ulIp]
    exact hnone i ((hc i).tState ▸ hused)

theorem CacheInv.receives (hi : CacheInv s.auiArpCache) {f : Frame} {siz : Nat}
    (hs : Receives s f siz t s') : CacheInv s'.auiArpCache := by
  cases hs with
  | ignores hno hc => exact hi.aged hc
  | @answers i c e _ ulIp tMac hreply hst hip hc he =>
    have hsti : (c i).tState = .requesting := (hc i).tState.trans hst
    refine (hi.aged hc).renew (by simp [hsti]) (fun _ => ?_) (by simp [he.2.2.2])
    rw [he.2.1, (hc i).ulIp, hip]

theorem CacheInv.ticks (hi : CacheInv s.auiArpCache) {i : Fin 8} (hs : Ticks s i t s') :
    CacheInv s'.auiArpCache := by
  cases hs with
  | waits he => exact hi.aged (aged_update s.auiArpCache he)
  | givesUp hst he => exact hi.renew (by simp [hst]) (by simp [he]) (by simp [he])

theorem CacheInv.step {l : Label} (hi : CacheInv s.auiArpCache) (hs : Step s l s') :
    CacheInv s'.auiArpCache := by
  cases hs with
  | sendIpv4Packet hr => exact hi.sends (runs_sendIpv4Packet hr)
  | processPacket hr => exact hi.receives (runs_processPacket hr)
  | timer hr =>
    exact timer_rule (fun _ s => CacheInv s.auiArpCache) (fun _ _ _ _ _ hi hs => hi.ticks hs) hi hr
  | options => exact hi

theorem Inv.sends (hi : Inv s) {ptPkt siz ulIp : Nat} (hsiz : siz ≠ 0) (hs : Sends s ptPkt siz ulIp t s') :
    Inv s' := by
  refine ⟨hi.cache.sends hs, fun x => ?_⟩
  cases hs with
  | group => exact hi.queued x
  | cached hg hst hip hc => rw [requested_aged hc, hi.queued]
  | full hg hnone hfull hc => rw [requested_aged hc, hi.queued]
  | joins hg hst hip hc =>
    obtain ⟨j, hfree, hadd⟩ | ⟨hfull, hadd⟩ := addWaitingPacket_cases s.atPacketQueue ptPkt siz ulIp
    · rw [hadd, requested_aged hc, queued_update hfree hsiz, hi.queued]
      constructor
      · rintro (h | rfl)
        · exact h
        · exact ⟨_, hst, hip⟩
      · exact .inl
    · rw [hadd, requested_aged hc, hi.queued]
  | asks hg hnone hfree hc he =>
    have hvictim := hi.freeEntry_not_requesting hfree hc
    rw [queued_update hfree hsiz, requested_update hvictim he.1, requested_aged hc, hi.queued, he.2.1]

theorem Inv.receives (hi : Inv s) {f : Frame} {siz : Nat} (hs : Receives s f siz t s') : Inv s' := by
  refine ⟨hi.cache.receives hs, fun x => ?_⟩
  cases hs with
  | ignores hno hc => rw [requested_aged hc, hi.queued]
  | @answers i c e _ ulIp tMac hreply hst hip hc he =>
    have hsti : (c i).tState = .requesting := (hc i).tState.trans hst
    rw [queued_drained, hi.queued, (hi.cache.aged hc).requested_remove hsti (by simp [he.1]),
      requested_aged hc, (hc i).ulIp, hip]

theorem Inv.ticks (hi : Inv s) {i : Fin 8} (hs : Ticks s i t s') : Inv s' := by
  refine ⟨hi.cache.ticks hs, fun x => ?_⟩
  cases hs with
  | waits he => rw [requested_aged (aged_update s.auiArpCache he), hi.queued]
  | givesUp hst he => rw [queued_drained, hi.queued, hi.cache.requested_remove hst (by simp [he])]

theorem Inv.step {l : Label} (hi : Inv s) (hs : Step s l s') (hl : l.NonZero) : Inv s' := by
  cases hs with
  | sendIpv4Packet hr =>
    refine hi.sends ?_ (runs_sendIpv4Packet hr)
    rintro rfl
    exact hl _ _ rfl
  | processPacket hr => exact hi.receives (runs_processPacket hr)
  | timer hr => exact timer_rule (fun _ s => Inv s) (fun _ _ _ _ _ hi hs => hi.ticks hs) hi hr
  | options => exact ⟨hi.cache, hi.queued⟩

theorem cacheInv_init (hs : Init s) : CacheInv s.auiArpCache := by
  obtain ⟨s₀, rfl⟩ := hs
  constructor
  · simp [arpInit]
  · simp [arpInit]

theorem inv_init (hs : Init s) : Inv s := by
  refine ⟨cacheInv_init hs, ?_⟩
  obtain ⟨s₀, rfl⟩ := hs
  simp [arpInit, Queued, Requested]

theorem mem_waiting {ulIp : Nat} {j : Fin 8} (hw : Waits q ulIp j = true) : j ∈ waiting q ulIp :=
  List.mem_filter.mpr ⟨List.mem_finRange j, hw⟩

theorem drained_of_not_waits {ulIp : Nat} {j : Fin 8} (hw : Waits q ulIp j = false) :
    drained q ulIp j = q j := by
  simp [drained, hw]

theorem Sends.queue_eq {ptPkt siz ulIp : Nat} (hs : Sends s ptPkt siz ulIp t s') {j : Fin 8}
    (hj : (s.atPacketQueue j).sizPacket ≠ 0) : s'.atPacketQueue j = s.atPacketQueue j := by
  cases hs with
  | group | cached | full => rfl
  | joins =>
    obtain ⟨k, hfree, hadd⟩ | ⟨-, hadd⟩ := addWaitingPacket_cases s.atPacketQueue ptPkt siz ulIp
    · have hjk : j ≠ k := fun h => hj (h ▸ hfree)
      simp only [hadd, Function.update_of_ne hjk]
    · simp only [hadd]
  | @asks k c e _ hg hnone hfree =>
    have hjk : j ≠ k := fun h => hj (h ▸ hfree)
    simp only [Function.update_of_ne hjk]

theorem settles_receives {f : Frame} {siz : Nat} (hs : Receives s f siz t s') : Settles s t s' := by
  intro j hj
  cases hs with
  | ignores => exact .inl rfl
  | @answers i c e _ ulIp tMac hreply hst hip hc he ht =>
    cases hw : Waits s.atPacketQueue ulIp j with
    | true =>
      refine .inr (.inl ⟨tMac, ?_⟩)
      rw [ht]
      exact List.mem_map_of_mem (mem_waiting hw)
    | false => exact .inl (drained_of_not_waits hw)

theorem Settles.ticks {s₀ : Layer} {u : List ArpEvent} {i : Fin 8} (h : Settles s₀ t s)
    (hs : Ticks s i u s') : Settles s₀ (t ++ u) s' := by
  intro j hj
  simp only [ipSends_append, releases_append, List.mem_append]
  obtain hsame | ⟨tMac, hsent⟩ | hrel := h j hj
  · cases hs with
    | waits => exact .inl hsame
    | givesUp hst he ht hrel =>
      cases hw : Waits s.atPacketQueue (s.auiArpCache i).ulIp j with
      | true =>
        refine .inr (.inr (.inr ?_))
        rw [hrel, ← hsame]
        exact List.mem_map_of_mem (mem_waiting hw)
      | false => exact .inl ((drained_of_not_waits hw).trans hsame)
  · exact .inr (.inl ⟨tMac, .inl hsent⟩)
  · exact .inr (.inr (.inl hrel))

theorem settles_step {l : Label} (hs : Step s l s') : Settles s l.trace s' := by
  cases hs with
  | sendIpv4Packet hr => exact fun j hj => .inl ((runs_sendIpv4Packet hr).queue_eq hj)
  | processPacket hr => exact settles_receives (runs_processPacket hr)
  | timer hr =>
    exact timer_rule (fun t s' => Settles s t s') (fun _ _ _ _ _ h hs => h.ticks hs)
      (fun _ _ => .inl rfl) hr
  | options => exact fun _ _ => .inl rfl

theorem Inv.requests_sends (hi : Inv s) {ptPkt siz ulIp : Nat} (hs : Sends s ptPkt siz ulIp t s') (i : Fin 8)
    (hst : (s.auiArpCache i).tState = .requesting) :
    (s'.auiArpCache i).tState = .requesting ∧ (s'.auiArpCache i).ulIp = (s.auiArpCache i).ulIp := by
  cases hs with
  | group => exact ⟨hst, rfl⟩
  | cached hg hst' hip hc => exact ⟨(hc i).tState.trans hst, (hc i).ulIp⟩
  | joins hg hst' hip hc => exact ⟨(hc i).tState.trans hst, (hc i).ulIp⟩
  | full hg hnone hfull hc => exact ⟨(hc i).tState.trans hst, (hc i).ulIp⟩
  | @asks j c e _ hg hnone hfree hc =>
    have hvictim := hi.freeEntry_not_requesting hfree hc
    have hne : i ≠ freeEntry c := fun h => hvictim (h ▸ (hc i).tState.trans hst)
    simp only [Function.update_of_ne hne]
    exact ⟨(hc i).tState.trans hst, (hc i).ulIp⟩

/-- The addresses in the cache differ, and packets wait for exactly those that
are asked for. So there is always an entry for a new request that takes the
place of no other one, and a packet leaves the queue together with its request
only when it is sent or released. -/
theorem arp_packets_have_requests {h : List Label} {s : Layer}
    (hr : Reach Init (fun s l s' => Step s l s' ∧ l.NonZero) h s) :
    (∀ i j, (s.auiArpCache i).tState ≠ .unused → (s.auiArpCache j).tState ≠ .unused →
      (s.auiArpCache i).ulIp = (s.auiArpCache j).ulIp → i = j) ∧
    {ulIp | Queued s.atPacketQueue ulIp} = {ulIp | Requested s.auiArpCache ulIp} ∧
    (∀ ptPkt siz ulIp c i, arpGetCacheEntry s.auiArpCache ulIp = (c, none) →
      (arpAddWaitingPacket s.atPacketQueue ptPkt siz ulIp).2 = some i →
        (c (freeEntry c)).tState ≠ .requesting) ∧
    (∀ ptPkt siz ulIp t s', Runs (arpSendIpv4Packet s ptPkt siz ulIp) t s' →
      ∀ i, (s.auiArpCache i).tState = .requesting →
        (s'.auiArpCache i).tState = .requesting ∧ (s'.auiArpCache i).ulIp = (s.auiArpCache i).ulIp) ∧
    ∀ l s', Step s l s' → l.NonZero → ∀ j, (s.atPacketQueue j).sizPacket ≠ 0 →
      (s'.atPacketQueue j = s.atPacketQueue j ∧ Requested s'.auiArpCache (s.atPacketQueue j).ulIp) ∨
      (∃ tMac, ((s.atPacketQueue j).ptPkt, (s.atPacketQueue j).sizPacket, tMac) ∈ ipSends l.trace) ∨
      (s.atPacketQueue j).ptPkt ∈ releases l.trace := by
  have hi : Inv s := hr.invariant (fun _ s => Inv s) (fun _ hs => inv_init hs)
    (fun _ _ _ _ hi hs => hi.step hs.1 hs.2)
  refine ⟨hi.cache.distinct, Set.ext hi.queued, ?_, ?_, ?_⟩
  · intro ptPkt siz ulIp c i hget hadd
    obtain ⟨j, hfree, -⟩ | ⟨-, hfull⟩ := addWaitingPacket_cases s.atPacketQueue ptPkt siz ulIp
    · have hc := getCacheEntry_aged s.auiArpCache ulIp
      rw [hget] at hc
      exact hi.freeEntry_not_requesting hfree hc
    · rw [hfull] at hadd
      cases hadd
  · intro ptPkt siz ulIp t s' hsend
    exact hi.requests_sends (runs_sendIpv4Packet hsend)
  · intro l s' hs hl j hj
    obtain hsame | hgone := settles_step hs j hj
    · exact .inl ⟨hsame, ((hi.step hs hl).queued _).mp ⟨j, hsame ▸ hj, congrArg QueueEntry.ulIp hsame⟩⟩
    · exact .inr hgone

def exampleOracle (bElapsed : Bool) : Oracle Call Call.Ret := fun _ c =>
  match c with
  | .ethGetEmptyPacket => (some 0x9000 : Option Nat)
  | .putArpPkt _ _ => ()
  | .ethSendPacket _ _ _ _ => ()
  | .ethReleasePacket _ => ()
  | .systimeGetMs => (0 : Nat)
  | .systimeHandleIsElapsed _ _ => bElapsed

def exampleInit : Layer :=
  arpInit ⟨fun _ => ⟨.unused, 0, 0, [], 0, 0⟩, fun _ => ⟨0, 0, 0⟩, exampleEthernet⟩

def exampleSend (s : Layer) (ptPkt siz ulDstIp : Nat) : List ArpEvent × Layer :=
  exec (exampleOracle false) (arpSendIpv4Packet s ptPkt siz ulDstIp) []

theorem step_exampleSend (s : Layer) (ptPkt siz ulDstIp : Nat) :
    Step s ⟨s, .sendIpv4Packet ptPkt siz ulDstIp, (exampleSend s ptPkt siz ulDstIp).1,
      (exampleSend s ptPkt siz ulDstIp).2⟩ (exampleSend s ptPkt siz ulDstIp).2 :=
  .sendIpv4Packet (exec_runs (exampleOracle false) (arpSendIpv4Packet s ptPkt siz ulDstIp) [])

theorem arp_packets_have_requests_first :
    ∃ h s, Reach Init (fun s l s' => Step s l s' ∧ l.NonZero) h s ∧
      Queued s.atPacketQueue (ipAdr 192 168 0 1) ∧ Requested s.auiArpCache (ipAdr 192 168 0 1) := by
  have hreach : Reach Init (fun s l s' => Step s l s' ∧ l.NonZero) _ _ :=
    .step (.init ⟨_, rfl⟩) ⟨step_exampleSend exampleInit 0x8000 28 (ipAdr 192 168 0 1), by
      intro ptPkt ulDstIp h
      cases h⟩
  have hqueued : Queued (exampleSend exampleInit 0x8000 28 (ipAdr 192 168 0 1)).2.atPacketQueue
      (ipAdr 192 168 0 1) := ⟨0, by decide +kernel, by decide +kernel⟩
  have hsets := (arp_packets_have_requests hreach).2.1
  exact ⟨_, _, hreach, hqueued, hsets.subset hqueued⟩

end FlashApp.Arp
