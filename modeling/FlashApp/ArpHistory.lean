import FlashApp.ArpInvariant

namespace FlashApp.Arp

open Bytes Eth Interaction Machine

/-- The step enters a request for the address into the cache. -/
def Enters (l : Label) (ulIp : Nat) : Prop :=
  ¬ Requested l.pre.auiArpCache ulIp ∧ Requested l.post.auiArpCache ulIp

def Replies (l : Label) (ulIp : Nat) (tMac : List UInt8) : Prop :=
  ∃ f siz, l.op = .processPacket f siz ∧ ReplyFor l.pre.tEthernet f siz ulIp tMac

/-- There was no reply since the last request. -/
def Pending (h : List Label) (ulIp : Nat) : Prop :=
  ∃ h₁ l₁ h₂, h = h₁ ++ l₁ :: h₂ ∧ Enters l₁ ulIp ∧
    ∀ l ∈ h₂, ¬ Enters l ulIp ∧ ∀ tMac, ¬ Replies l ulIp tMac

/-- The MAC is that of the first reply since the last request. -/
def FirstReply (h : List Label) (ulIp : Nat) (tMac : List UInt8) : Prop :=
  ∃ h₁ l₁ h₂, h = h₁ ++ l₁ :: h₂ ∧ Pending h₁ ulIp ∧ Replies l₁ ulIp tMac ∧
    ∀ l ∈ l₁ :: h₂, ¬ Enters l ulIp

/-- The step sends a packet that it gets for the address, or one that has been
waiting for it. -/
def SentFor (l : Label) (ptPkt siz ulIp : Nat) (tMac : List UInt8) : Prop :=
  (ptPkt, siz, tMac) ∈ ipSends l.trace ∧
    (l.op = .sendIpv4Packet ptPkt siz ulIp ∨
      ∃ j, l.pre.atPacketQueue j = ⟨siz, ulIp, ptPkt⟩ ∧ siz ≠ 0 ∧ (l.post.atPacketQueue j).sizPacket = 0)

def UsesMac (c : Cache) (ulIp : Nat) (tMac : List UInt8) : Prop :=
  ∃ i, (c i).tState = .valid ∧ (c i).ulIp = ulIp ∧ (c i).tMac = tMac

variable {s s' : Layer} {l : Label} {h : List Label} {c c' : Cache} {t : List ArpEvent} {ulIp : Nat}
  {tMac : List UInt8}

theorem pending_enters (hl : Enters l ulIp) : Pending (h ++ [l]) ulIp := ⟨h, l, [], rfl, hl, by simp⟩

theorem Pending.snoc (hp : Pending h ulIp) (hl : ¬ Enters l ulIp) (hr : ∀ tMac, ¬ Replies l ulIp tMac) :
    Pending (h ++ [l]) ulIp := by
  obtain ⟨h₁, l₁, h₂, rfl, henter, hrest⟩ := hp
  refine ⟨h₁, l₁, h₂ ++ [l], by simp, henter, fun l' hl' => ?_⟩
  obtain hl' | hl' := List.mem_append.mp hl'
  · exact hrest l' hl'
  · rw [List.mem_singleton.mp hl']
    exact ⟨hl, hr⟩

theorem Pending.reply (hp : Pending h ulIp) (hl : ¬ Enters l ulIp) (hr : Replies l ulIp tMac) :
    FirstReply (h ++ [l]) ulIp tMac := ⟨h, l, [], rfl, hp, hr, by simpa using hl⟩

theorem FirstReply.snoc (hf : FirstReply h ulIp tMac) (hl : ¬ Enters l ulIp) :
    FirstReply (h ++ [l]) ulIp tMac := by
  obtain ⟨h₁, l₁, h₂, rfl, hp, hr, hrest⟩ := hf
  refine ⟨h₁, l₁, h₂ ++ [l], by simp, hp, hr, fun l' hl' => ?_⟩
  rw [← List.cons_append] at hl'
  obtain hl' | hl' := List.mem_append.mp hl'
  · exact hrest l' hl'
  · rw [List.mem_singleton.mp hl']
    exact hl

/-- What a step can do to an entry of the cache. -/
structure EntryStep (l : Label) (e e' : CacheEntry) : Prop where
  requesting : e'.tState = .requesting →
    (e.tState = .requesting ∧ e'.ulIp = e.ulIp ∧ ∀ tMac, ¬ Replies l e.ulIp tMac) ∨ Enters l e'.ulIp
  valid : e'.tState = .valid →
    (e.tState = .valid ∧ e'.ulIp = e.ulIp ∧ e'.tMac = e.tMac) ∨
      (e.tState = .requesting ∧ e'.ulIp = e.ulIp ∧ Replies l e.ulIp e'.tMac)

theorem EntryStep.aged {e e' : CacheEntry} (he : Aged e e')
    (hno : e.tState = .requesting → ∀ tMac, ¬ Replies l e.ulIp tMac) : EntryStep l e e' := by
  constructor
  · intro hst
    rw [he.tState] at hst
    exact .inl ⟨hst, he.ulIp, hno hst⟩
  · intro hst
    rw [he.tState] at hst
    exact .inl ⟨hst, he.ulIp, he.tMac⟩

theorem CacheInv.not_requested_of_valid (hi : CacheInv c) (hu : UsesMac c ulIp tMac) :
    ¬ Requested c ulIp := by
  obtain ⟨i, hst, hip, -⟩ := hu
  rintro ⟨j, hstj, hipj⟩
  have hij := hi.distinct i j (by simp [hst]) (by simp [hstj]) (hip.trans hipj.symm)
  rw [← hij, hst] at hstj
  cases hstj

theorem entryStep_sends {ptPkt siz : Nat} (hs : Sends s ptPkt siz ulIp t s') (i : Fin 8) :
    EntryStep ⟨s, .sendIpv4Packet ptPkt siz ulIp, t, s'⟩ (s.auiArpCache i) (s'.auiArpCache i) := by
  have hno : ∀ x tMac, ¬ Replies ⟨s, .sendIpv4Packet ptPkt siz ulIp, t, s'⟩ x tMac := by
    rintro x tMac ⟨f, n, hop, -⟩
    cases hop
  cases hs with
  | group => exact .aged (.refl _) (fun _ => hno _)
  | cached hg hst hip hc => exact .aged (hc i) (fun _ => hno _)
  | joins hg hst hip hc => exact .aged (hc i) (fun _ => hno _)
  | full hg hnone hfull hc => exact .aged (hc i) (fun _ => hno _)
  | @asks j c e _ hg hnone hfree hc he =>
    by_cases hij : i = freeEntry c
    · -- the new request
      have henter : Requested (Function.update c (freeEntry c) e) ulIp :=
        ⟨freeEntry c, by simpa using he.1, by simpa using he.2.1⟩
      constructor
      · intro _
        refine .inr ⟨?_, ?_⟩
        · rintro ⟨k, hk, hip⟩
          simp only [hij, Function.update_self, he.2.1] at hk hip
          exact hnone k (by simp [hk]) hip
        · simpa only [hij, Function.update_self, he.2.1] using henter
      · intro hst
        simp only [hij, Function.update_self, he.1] at hst
        cases hst
    · simp only [Function.update_of_ne hij]
      exact .aged (hc i) (fun _ => hno _)

theorem entryStep_receives (hi : CacheInv s.auiArpCache) {f : Frame} {siz : Nat} (hs : Receives s f siz t s')
    (i : Fin 8) :
    EntryStep ⟨s, .processPacket f siz, t, s'⟩ (s.auiArpCache i) (s'.auiArpCache i) := by
  cases hs with
  | ignores hno hc =>
    refine .aged (hc i) ?_
    rintro hst tMac ⟨f', siz', hop, hreply⟩
    cases hop
    obtain hnone | ⟨j, hj, hip⟩ := hno _ _ hreply
    · exact hnone i (by simp [hst]) rfl
    · exact hi.not_requested_of_valid ⟨j, hj, hip, rfl⟩ ⟨i, hst, rfl⟩
  | @answers j c e _ ulIp tMac hreply hst hip hc he =>
    by_cases hij : i = j
    · -- the answered request
      subst hij
      simp only [Function.update_self]
      constructor
      · simp [he.1]
      · intro _
        refine .inr ⟨hst, he.2.1.trans hip.symm, f, siz, rfl, ?_⟩
        rwa [hip, he.2.2.1]
    · simp only [Function.update_of_ne hij]
      refine .aged (hc i) ?_
      rintro hsti tMac' ⟨f', siz', hop, hreply'⟩
      cases hop
      have hsame : (s.auiArpCache i).ulIp = ulIp := hreply'.srcIp.symm.trans hreply.srcIp
      exact hij (hi.distinct i j (by simp [hsti]) (by simp [hst]) (hsame.trans hip.symm))

theorem entryStep_timer (hr : Runs (arpTimer s) t s') (i : Fin 8) :
    EntryStep ⟨s, .timer, t, s'⟩ (s.auiArpCache i) (s'.auiArpCache i) := by
  have hkept : ((s'.auiArpCache i).tState = .unused ∨ Aged (s.auiArpCache i) (s'.auiArpCache i)) := by
    refine timer_rule
      (fun _ s' => (s'.auiArpCache i).tState = .unused ∨ Aged (s.auiArpCache i) (s'.auiArpCache i))
      (fun t s₁ j u s₂ hkept htick => ?_) (.inr (.refl _)) hr
    cases htick with
    | waits he =>
      have haged := aged_update s₁.auiArpCache he i
      obtain hunused | hk := hkept
      · exact .inl (haged.tState.trans hunused)
      · exact .inr (hk.trans haged)
    | givesUp hst he =>
      by_cases hij : i = j
      · subst hij
        simp only [Function.update_self]
        exact .inl he
      · simpa only [Function.update_of_ne hij] using hkept
  obtain hunused | haged := hkept
  · constructor
    · simp [hunused]
    · simp [hunused]
  · refine .aged haged (fun _ tMac => ?_)
    rintro ⟨f, siz, hop, -⟩
    cases hop

theorem entryStep (hi : CacheInv s.auiArpCache) (hs : Step s l s') (i : Fin 8) :
    EntryStep l (s.auiArpCache i) (s'.auiArpCache i) := by
  cases hs with
  | sendIpv4Packet hr => exact entryStep_sends (runs_sendIpv4Packet hr) i
  | processPacket hr => exact entryStep_receives hi (runs_processPacket hr) i
  | timer hr => exact entryStep_timer hr i
  | options =>
    refine .aged (.refl _) (fun _ tMac => ?_)
    rintro ⟨f, siz, hop, -⟩
    cases hop

theorem Step.label (hs : Step s l s') : l.pre = s ∧ l.post = s' := by
  cases hs <;> exact ⟨rfl, rfl⟩

/-- The packets of the queue were handed over for the addresses they wait for. -/
def Handed (h : List Label) (q : Queue) : Prop :=
  ∀ j, (q j).sizPacket ≠ 0 → ∃ l ∈ h, l.op = .sendIpv4Packet (q j).ptPkt (q j).sizPacket (q j).ulIp

/-- A requested address has not answered yet, and a MAC in the cache is the
first answer of its address. -/
structure HistoryInv (h : List Label) (s : Layer) : Prop where
  cache : CacheInv s.auiArpCache
  requesting : ∀ i, (s.auiArpCache i).tState = .requesting → Pending h (s.auiArpCache i).ulIp
  valid : ∀ i, (s.auiArpCache i).tState = .valid →
    FirstReply h (s.auiArpCache i).ulIp (s.auiArpCache i).tMac
  queue : Handed h s.atPacketQueue

theorem Handed.mono {q q' : Queue} (hq : Handed h q)
    (hsub : ∀ j, (q' j).sizPacket ≠ 0 → q' j = q j) : Handed (h ++ [l]) q' := by
  intro j hj
  have hsame := hsub j hj
  rw [hsame] at hj ⊢
  obtain ⟨l', hl', hop⟩ := hq j hj
  exact ⟨l', List.mem_append_left _ hl', hop⟩

theorem Handed.update {q : Queue} (hq : Handed h q) {ptPkt siz : Nat}
    (hop : l.op = .sendIpv4Packet ptPkt siz ulIp) (j : Fin 8) :
    Handed (h ++ [l]) (Function.update q j ⟨siz, ulIp, ptPkt⟩) := by
  intro k hk
  by_cases hkj : k = j
  · subst hkj
    exact ⟨l, by simp, by simpa using hop⟩
  · rw [Function.update_of_ne hkj] at hk ⊢
    obtain ⟨l', hl', hop'⟩ := hq k hk
    exact ⟨l', List.mem_append_left _ hl', hop'⟩

theorem drained_sub (q : Queue) (ulIp : Nat) (j : Fin 8) (hj : (drained q ulIp j).sizPacket ≠ 0) :
    drained q ulIp j = q j := by
  cases hw : Waits q ulIp j with
  | true => simp [drained, hw] at hj
  | false => exact drained_of_not_waits hw

theorem Handed.step (hq : Handed h s.atPacketQueue) (hs : Step s l s') : Handed (h ++ [l]) s'.atPacketQueue := by
  cases hs with
  | @sendIpv4Packet _ ptPkt siz ulIp _ hr =>
    cases runs_sendIpv4Packet hr with
    | group | cached | full => exact hq.mono (fun _ _ => rfl)
    | joins =>
      obtain ⟨j, hfree, hadd⟩ | ⟨-, hadd⟩ := addWaitingPacket_cases s.atPacketQueue ptPkt siz ulIp
      · simp only [hadd]
        exact hq.update rfl j
      · simp only [hadd]
        exact hq.mono (fun _ _ => rfl)
    | asks => exact hq.update rfl _
  | processPacket hr =>
    cases runs_processPacket hr with
    | ignores => exact hq.mono (fun _ _ => rfl)
    | answers => exact hq.mono (drained_sub _ _)
  | timer hr =>
    refine hq.mono (timer_rule (fun _ s' => ∀ j, (s'.atPacketQueue j).sizPacket ≠ 0 →
      s'.atPacketQueue j = s.atPacketQueue j) (fun t s₁ i u s₂ hsub htick j hj => ?_) (fun _ _ => rfl) hr)
    cases htick with
    | waits => exact hsub j hj
    | givesUp =>
      have hsame := drained_sub _ _ j hj
      exact hsame.trans (hsub j (hsame ▸ hj))
  | options => exact hq.mono (fun _ _ => rfl)

theorem HistoryInv.step (hi : HistoryInv h s) (hs : Step s l s') : HistoryInv (h ++ [l]) s' := by
  have hcache := hi.cache.step hs
  obtain ⟨hpre, hpost⟩ := hs.label
  refine ⟨hcache, fun i hst => ?_, fun i hst => ?_, hi.queue.step hs⟩
  · obtain ⟨hst', hip, hno⟩ | henter := (entryStep hi.cache hs i).requesting hst
    · rw [hip]
      refine (hi.requesting i hst').snoc (fun henter => ?_) hno
      rw [Enters, hpre] at henter
      exact henter.1 ⟨i, hst', rfl⟩
    · exact pending_enters henter
  · have hnot : ¬ Enters l (s'.auiArpCache i).ulIp := by
      rw [Enters, hpost]
      exact fun henter => hcache.not_requested_of_valid ⟨i, hst, rfl, rfl⟩ henter.2
    obtain ⟨hst', hip, hmac⟩ | ⟨hst', hip, hreply⟩ := (entryStep hi.cache hs i).valid hst
    · rw [hip] at hnot
      rw [hip, hmac]
      exact (hi.valid i hst').snoc hnot
    · rw [hip] at hnot
      rw [hip]
      exact (hi.requesting i hst').reply hnot hreply

theorem historyInv_init (hs : Init s) : HistoryInv [] s := by
  refine ⟨cacheInv_init hs, ?_, ?_, ?_⟩ <;> obtain ⟨s₀, rfl⟩ := hs
  · simp [arpInit]
  · simp [arpInit]
  · simp [arpInit, Handed]

theorem timer_sends_nothing (hr : Runs (arpTimer s) t s') : ipSends t = [] := by
  refine timer_rule (fun t _ => ipSends t = []) (fun t s₁ i u s₂ ht htick => ?_) rfl hr
  cases htick with
  | waits he hu => simp [ht, hu]
  | givesUp hst he hu => simp [ht, hu]

theorem exists_sentFor (hs : Step s l s') {ptPkt siz : Nat} (hsend : (ptPkt, siz, tMac) ∈ ipSends l.trace) :
    ∃ ulIp, SentFor l ptPkt siz ulIp tMac := by
  cases hs with
  | @sendIpv4Packet _ p n ulIp t hr =>
    have hmem : ∀ m, ipSends t = [(p, n, m)] → (ptPkt = p ∧ siz = n) := by
      intro m ht
      rw [ht, List.mem_singleton] at hsend
      cases hsend
      exact ⟨rfl, rfl⟩
    have hsame : ptPkt = p ∧ siz = n := by
      cases runs_sendIpv4Packet hr with
      | group hg ht => exact hmem _ ht
      | cached hg hst hip hc ht => exact hmem _ ht
      | joins | full => cases hsend
      | asks hg hnone hfree hc he ht =>
        rw [ht] at hsend
        cases hsend
    obtain ⟨rfl, rfl⟩ := hsame
    exact ⟨ulIp, hsend, .inl rfl⟩
  | processPacket hr =>
    cases runs_processPacket hr with
    | ignores hno hc ht =>
      rw [ht] at hsend
      cases hsend
    | @answers i c e _ ulIp mac hreply hst hip hc he ht =>
      have hmem := hsend
      rw [ht, List.mem_map] at hmem
      obtain ⟨j, hj, heq⟩ := hmem
      cases heq
      have hw : Waits s.atPacketQueue ulIp j = true := List.of_mem_filter hj
      obtain ⟨hne, hipj⟩ := of_decide_eq_true hw
      refine ⟨ulIp, hsend, .inr ⟨j, ?_, hne, by simp [drained, hw]⟩⟩
      simp [← hipj]
  | timer hr =>
    rw [timer_sends_nothing hr] at hsend
    cases hsend
  | options => cases hsend

theorem Sends.usesMac {p n : Nat} (hs : Sends s p n ulIp t s') (hg : groupMac ulIp = none)
    {x : Nat × Nat × List UInt8} (hx : x ∈ ipSends t) : UsesMac s'.auiArpCache ulIp x.2.2 := by
  cases hs with
  | group hg' => cases hg.symm.trans hg'
  | @cached i c _ hg' hst hip hc ht =>
    rw [ht, List.mem_singleton] at hx
    subst hx
    exact ⟨i, (hc i).tState.trans hst, (hc i).ulIp.trans hip, (hc i).tMac⟩
  | joins | full => cases hx
  | asks hg' hnone hfree hc he ht =>
    rw [ht] at hx
    cases hx

/-- A packet that leaves the queue with a reply was waiting for its sender. -/
theorem Receives.usesMac {f : Frame} {n : Nat} (hr : Receives s f n t s') {x : Nat × Nat × List UInt8}
    (hx : x ∈ ipSends t) {j : Fin 8} (hsiz : (s.atPacketQueue j).sizPacket ≠ 0)
    (hleft : (s'.atPacketQueue j).sizPacket = 0) :
    UsesMac s'.auiArpCache (s.atPacketQueue j).ulIp x.2.2 := by
  cases hr with
  | ignores => exact absurd hleft hsiz
  | @answers i c e _ ip mac hreply hst hip hc he ht =>
    have hip : (s.atPacketQueue j).ulIp = ip := by
      cases hw : Waits s.atPacketQueue ip j with
      | true => exact (of_decide_eq_true hw).2
      | false =>
        simp only [drained_of_not_waits hw] at hleft
        exact absurd hleft hsiz
    rw [ht, List.mem_map] at hx
    obtain ⟨k, -, rfl⟩ := hx
    refine ⟨i, ?_⟩
    simp only [Function.update_self]
    exact ⟨he.1, he.2.1.trans hip.symm, he.2.2.1⟩

theorem Step.usesMac (hs : Step s l s') {ptPkt siz : Nat} (hsent : SentFor l ptPkt siz ulIp tMac)
    (hg : groupMac ulIp = none) : UsesMac s'.auiArpCache ulIp tMac := by
  obtain ⟨hsend, hfor⟩ := hsent
  cases hs with
  | sendIpv4Packet hr =>
    have hsends := runs_sendIpv4Packet hr
    obtain hop | ⟨j, hj, hne, hleft⟩ := hfor
    · cases hop
      exact hsends.usesMac hg hsend
    · have hsiz : (s.atPacketQueue j).sizPacket ≠ 0 := by
        rw [hj]
        exact hne
      rw [hsends.queue_eq hsiz] at hleft
      exact absurd hleft hsiz
  | processPacket hr =>
    obtain hop | ⟨j, hj, hne, hleft⟩ := hfor
    · cases hop
    · have hmac := (runs_processPacket hr).usesMac hsend (j := j) (by rwa [hj]) hleft
      rwa [hj] at hmac
  | timer hr =>
    rw [timer_sends_nothing hr] at hsend
    cases hsend
  | options => cases hsend

theorem HistoryInv.firstReply (hi : HistoryInv h s) (hu : UsesMac s.auiArpCache ulIp tMac) :
    FirstReply h ulIp tMac := by
  obtain ⟨i, hst, rfl, rfl⟩ := hu
  exact hi.valid i hst

/-- Both ways to send a packet use the first reply. -/
theorem HistoryInv.sentFor (hi : HistoryInv h s) (hs : Step s l s') {ptPkt siz : Nat}
    (hsent : SentFor l ptPkt siz ulIp tMac) (hg : groupMac ulIp = none) :
    FirstReply (h ++ [l]) ulIp tMac := (hi.step hs).firstReply (hs.usesMac hsent hg)

theorem HistoryInv.handed (hi : HistoryInv h s) (hs : Step s l s') {ptPkt siz : Nat}
    (hsent : SentFor l ptPkt siz ulIp tMac) : ∃ l' ∈ h ++ [l], l'.op = .sendIpv4Packet ptPkt siz ulIp := by
  obtain ⟨-, hop | ⟨j, hj, hne, -⟩⟩ := hsent
  · exact ⟨l, by simp, hop⟩
  · rw [hs.label.1] at hj
    obtain ⟨l', hl', hop⟩ := hi.queue j (by simpa [hj] using hne)
    refine ⟨l', List.mem_append_left _ hl', ?_⟩
    rw [hop, hj]

theorem usesMac_aged (hc : ∀ i, Aged (c i) (c' i)) : UsesMac c' ulIp tMac ↔ UsesMac c ulIp tMac := by
  simp only [UsesMac, (hc _).tState, (hc _).ulIp, (hc _).tMac]

/-- Without an answer to a request nothing changes but the ages. -/
theorem unasked_packet {f : Frame} {siz : Nat} (hs : Step s l s') (hop : l.op = .processPacket f siz)
    (hno : ∀ x m, ReplyFor s.tEthernet f siz x m → ¬ Requested s.auiArpCache x) :
    (∀ ulIp tMac, UsesMac s'.auiArpCache ulIp tMac ↔ UsesMac s.auiArpCache ulIp tMac) ∧
      (∀ ulIp, Requested s'.auiArpCache ulIp ↔ Requested s.auiArpCache ulIp) ∧
      s'.atPacketQueue = s.atPacketQueue := by
  cases hs with
  | processPacket hr =>
    cases hop
    cases runs_processPacket hr with
    | ignores hno' hc => exact ⟨fun _ _ => usesMac_aged hc, requested_aged hc, rfl⟩
    | answers hreply hst hip => exact absurd ⟨_, hst, hip⟩ (hno _ _ hreply)
  | sendIpv4Packet | timer | options => cases hop

/-- A packet for an address is sent to the MAC of the first reply since the
address was last asked for. Other ARP packets have no influence on that. -/
theorem arp_mac_of_first_reply {h : List Label} {s s' : Layer} {l : Label} (hr : Reach Init Step h s)
    (hs : Step s l s') :
    (∀ ptPkt siz tMac, (ptPkt, siz, tMac) ∈ ipSends l.trace → ∃ ulIp, SentFor l ptPkt siz ulIp tMac) ∧
    (∀ ptPkt siz ulIp tMac, SentFor l ptPkt siz ulIp tMac →
      (∃ l' ∈ h ++ [l], l'.op = .sendIpv4Packet ptPkt siz ulIp) ∧
      (groupMac ulIp = none → FirstReply (h ++ [l]) ulIp tMac)) ∧
    (∀ f siz, l.op = .processPacket f siz →
      (∀ ulIp tMac, ReplyFor s.tEthernet f siz ulIp tMac → ¬ Requested s.auiArpCache ulIp) →
        (∀ ulIp tMac, UsesMac s'.auiArpCache ulIp tMac ↔ UsesMac s.auiArpCache ulIp tMac) ∧
        (∀ ulIp, Requested s'.auiArpCache ulIp ↔ Requested s.auiArpCache ulIp) ∧
        s'.atPacketQueue = s.atPacketQueue) ∧
    ∀ ulIp tMac, UsesMac s.auiArpCache ulIp tMac → ¬ Requested s.auiArpCache ulIp := by
  have hi : HistoryInv h s := hr.invariant HistoryInv (fun _ hs => historyInv_init hs)
    (fun _ _ _ _ hi hs => hi.step hs)
  refine ⟨fun _ _ _ hsend => exists_sentFor hs hsend, fun ptPkt siz ulIp tMac hsent => ?_,
    fun f siz hop hno => unasked_packet hs hop hno, fun _ _ hu => hi.cache.not_requested_of_valid hu⟩
  exact ⟨hi.handed hs hsent, fun hg => hi.sentFor hs hsent hg⟩

def exampleReply : Frame :=
  store (fun _ => 0) tArpPkt (aucArpFixedHdr ++ toLe16 arpOpcodeReply ++ [2, 0, 0, 0, 0, 1] ++
    toLe32 (ipAdr 192 168 0 1) ++ exampleEthernet.aucMac ++ toLe32 exampleEthernet.ulIp)

def exampleAsked : List ArpEvent × Layer := exampleSend exampleInit 0x8000 28 (ipAdr 192 168 0 1)

def exampleAnswered (s : Layer) : List ArpEvent × Layer :=
  exec (exampleOracle false) (arpProcessPacket s exampleReply 42) []

theorem step_exampleAnswered (s : Layer) :
    Step s ⟨s, .processPacket exampleReply 42, (exampleAnswered s).1, (exampleAnswered s).2⟩
      (exampleAnswered s).2 :=
  .processPacket (exec_runs (exampleOracle false) (arpProcessPacket s exampleReply 42) [])

theorem arp_mac_of_first_reply_answered :
    ∃ h s l s', Reach Init Step h s ∧ Step s l s' ∧
      SentFor l 0x8000 28 (ipAdr 192 168 0 1) [2, 0, 0, 0, 0, 1] ∧
      FirstReply (h ++ [l]) (ipAdr 192 168 0 1) [2, 0, 0, 0, 0, 1] := by
  have hreach : Reach Init Step _ exampleAsked.2 :=
    .step (.init ⟨_, rfl⟩) (step_exampleSend exampleInit 0x8000 28 (ipAdr 192 168 0 1))
  have hsent : SentFor ⟨exampleAsked.2, .processPacket exampleReply 42, (exampleAnswered exampleAsked.2).1,
      (exampleAnswered exampleAsked.2).2⟩ 0x8000 28 (ipAdr 192 168 0 1) [2, 0, 0, 0, 0, 1] :=
    ⟨by decide +kernel, .inr ⟨0, by decide +kernel, by decide, by decide +kernel⟩⟩
  have hfirst := ((arp_mac_of_first_reply hreach (step_exampleAnswered exampleAsked.2)).2.1
    _ _ _ _ hsent).2 (by decide)
  exact ⟨_, _, _, _, hreach, step_exampleAnswered exampleAsked.2, hsent, hfirst⟩

end FlashApp.Arp
