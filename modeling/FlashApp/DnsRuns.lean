import FlashApp.Dns

namespace FlashApp.Dns

open Bytes Eth Interaction Udp UdpClient Machine

inductive Op where
  | request (pcName : CString)
  | receive (m : Memory) (pvData sizDnsLength : Nat)
  | timer
  | other (op : Udp.Op Handler)

abbrev Label := Op × List ClientEvent

/-- A lookup is only started while no other one is open. -/
inductive Step : Client → Label → Client → Prop
  | request {s s' : Client} {pcName : CString} {t : List ClientEvent} {iResult : Int}
      (hs : s.tState ≠ .request) (hr : Runs (dnsRequest s pcName) t (iResult, s')) :
      Step s (.request pcName, t) s'
  | receive {s s' : Client} {m : Memory} {pvData siz n : Nat}
      (hr : dnsRecHandler n s m pvData siz = some s') : Step s (.receive m pvData siz, []) s'
  | timer {s s' : Client} {t : List ClientEvent} (hr : Runs (dnsTimer s) t s') : Step s (.timer, t) s'
  | other {s : Client} {op : Udp.Op Handler} (hop : Foreign .dnsRecHandler s.atUdpPortAssoc op) :
      Step s (.other op, []) { s with atUdpPortAssoc := Udp.step s.atUdpPortAssoc op }

def Init (s : Client) : Prop :=
  ∃ (s₀ : Client) (t₀ : Table Handler) (ulRandom : Nat),
    s₀.atUdpPortAssoc = udpInit t₀ ∧ s = dnsInit s₀ ulRandom

def Owned (t : Table Handler) (i : Fin 8) : Prop :=
  (t i).uiLocalPort ≠ 0 ∧ (t i).pfnRecHandler = .dnsRecHandler

instance (t : Table Handler) (i : Fin 8) : Decidable (Owned t i) :=
  inferInstanceAs (Decidable (_ ∧ _))

/-- The client has one entry of the port list while it waits for an answer,
and none otherwise. -/
structure OwnsOne (s : Client) : Prop where
  unique : s.tState = .request → ∃! i, Owned s.atUdpPortAssoc i
  none : s.tState ≠ .request → ∀ i, ¬ Owned s.atUdpPortAssoc i

def inUse (a : Assoc Handler) : Option (Assoc Handler) :=
  if a.uiLocalPort = 0 then .none else some a

/-- The packet is an answer that the client gives its lookup up for, or takes
the result from. -/
def IsAnswer (s : Client) (m : Memory) (ptDnsPacket sizDnsLength : Nat) : Prop :=
  let uiFlags := mus2nus (get16 m (ptDnsPacket + usFlags))
  get16 m (ptDnsPacket + usTransactionId) = mus2nus s.usDnsTransactionIdCnt ∧
    uiFlags &&& mskDnsOptionResponse ≠ 0 ∧ uiFlags &&& mskDnsOptionOpcode = 0 ∧
    uiFlags &&& mskDnsOptionTruncated = 0 ∧
    (uiFlags &&& mskDnsOptionReplyCode ≠ dnsReplycodeOk ∨
      get16 m (ptDnsPacket + usQuestions) ≠ mus2nus 1 ∨
      get16 m (ptDnsPacket + usAnswerRRs) ||| get16 m (ptDnsPacket + usAuthorityRRs) |||
        get16 m (ptDnsPacket + usAdditionalRRs) = 0 ∨
      ∃ n pucQuery, skipQuery n m (ptDnsPacket + sizeofDnsPacket) (add32 ptDnsPacket sizDnsLength) =
        some (some pucQuery))

def EndsLookup (s : Client) (m : Memory) (pvData sizDnsLength : Nat) : Prop :=
  s.tState = .request ∧ sizeofDnsPacket ≤ sizDnsLength ∧ IsAnswer s m (pvData + uUdpData) sizDnsLength

def NoAnswer (s : Client) : Op → Prop
  | .receive m pvData siz => ¬ EndsLookup s m pvData siz
  | _ => True

def Inv (s : Client) : Prop :=
  Holding .dnsRecHandler s.atUdpPortAssoc s.ptAssoc (s.tState = .request)

def otherUse (a : Assoc Handler) : Option (Assoc Handler) :=
  if a.pfnRecHandler = .dnsRecHandler then .none else inUse a

def others (t : Table Handler) (i : Fin 8) : Option (Assoc Handler) := otherUse (t i)

variable {s s' : Client} {t : List ClientEvent}

theorem others_register {tab : Table Handler} {a : Assoc Handler} (ha : a.pfnRecHandler = .dnsRecHandler) :
    others (udpRegisterPort tab a).1 = others tab := by
  obtain ⟨j, hj, hreg⟩ | ⟨-, hreg⟩ := udpRegisterPort_cases tab a
  · rw [hreg]
    funext i
    by_cases hij : i = j
    · subst hij
      simp [others, otherUse, inUse, hj, ha]
    · simp only [others, Function.update_of_ne hij]
  · rw [hreg]

theorem others_unregister {tab : Table Handler} {p : AssocPtr} (ho : Owns .dnsRecHandler tab p) :
    others (udpUnregisterPort tab p) = others tab := by
  cases p with
  | none => rfl
  | some j =>
    funext i
    by_cases hij : i = j
    · subst hij
      have hown : Owned tab i := (ho i).mpr rfl
      simp [others, otherUse, udpUnregisterPort, hown.2]
    · simp only [others, udpUnregisterPort, Function.update_of_ne hij]

theorem close_step (hi : Inv s) {st : DnsState} (hst : st ≠ .request) :
    Inv (dnsClose s st) ∧ others (dnsClose s st).atUdpPortAssoc = others s.atUdpPortAssoc := by
  refine ⟨Holding.close hi hst, ?_⟩
  simp only [dnsClose, dnsCleanup, cleanup_eq]
  exact others_unregister hi.owns

theorem timer_step (hi : Inv s) (hr : Runs (dnsTimer s) t s') :
    Inv s' ∧ others s'.atUdpPortAssoc = others s.atUdpPortAssoc := by
  cases hst : s.tState with
  | idle | ok | error | notFound =>
    simp only [dnsTimer, hst] at hr
    obtain ⟨rfl, rfl⟩ := hr
    exact ⟨hi, rfl⟩
  | request =>
    simp only [dnsTimer, hst, runs_bind] at hr
    obtain ⟨b, t₁, t₂, rfl, -, hr⟩ := hr
    cases b with
    | false =>
      obtain ⟨rfl, rfl⟩ := hr
      exact ⟨hi, rfl⟩
    | true =>
      simp only [↓reduceIte] at hr
      split at hr
      · simp only [runs_bind] at hr
        obtain ⟨r, t₃, t₄, rfl, -, ms, t₅, t₆, rfl, -, rfl, rfl⟩ := hr
        exact ⟨Holding.congr hi (by simp [hst]), rfl⟩
      · obtain ⟨rfl, rfl⟩ := hr
        exact close_step hi (by simp)

theorem dnsAssoc_port {o : Ethernet} : (dnsAssoc o).uiLocalPort ≠ 0 :=
  (by decide : mus2nus dnsSrcPort ≠ 0)

theorem request_step (hi : Inv s) (hs : s.tState ≠ .request) {pcName : CString} {r : Int}
    (hr : Runs (dnsRequest s pcName) t (r, s')) :
    Inv s' ∧ others s'.atUdpPortAssoc = others s.atUdpPortAssoc := by
  have howns := Holding.register hi hs (a := dnsAssoc s.tEthernet) dnsAssoc_port rfl
  have hothers := @others_register s.atUdpPortAssoc (dnsAssoc s.tEthernet) rfl
  simp only [dnsRequest] at hr
  generalize udpRegisterPort s.atUdpPortAssoc _ = q at howns hothers hr
  obtain ⟨tab, ptr⟩ := q
  cases ptr with
  | none =>
    obtain ⟨-, hr⟩ := hr
    obtain ⟨-, rfl⟩ := Prod.mk.inj hr
    refine ⟨⟨howns, ?_⟩, hothers⟩
    simpa using hs
  | some i =>
    simp only [runs_bind] at hr
    obtain ⟨r', t₁, t₂, rfl, hsend, hr⟩ := hr
    obtain ⟨rfl, rfl⟩ | ⟨rfl, rfl⟩ := runs_sendPacket.mp hsend
    · simp only [↓reduceIte, runs_bind] at hr
      obtain ⟨ms, t₃, t₄, rfl, -, -, hr⟩ := hr
      obtain ⟨-, rfl⟩ := Prod.mk.inj hr
      exact ⟨⟨howns, by simp⟩, hothers⟩
    · obtain ⟨-, hr⟩ := hr
      obtain ⟨-, rfl⟩ := Prod.mk.inj hr
      refine ⟨⟨owns_unregister howns, by simp [dnsClose, dnsCleanup, cleanup_eq]⟩, ?_⟩
      exact (others_unregister howns).trans hothers

theorem processAnswers_eq {m : Memory} {pkt siz n : Nat}
    (hskip : ∀ q, skipQuery n m (pkt + sizeofDnsPacket) (add32 pkt siz) ≠ some (some q))
    (hr : dnsProcessAnswers n s m pkt siz = some s') : s' = s := by
  simp only [dnsProcessAnswers] at hr
  split at hr
  · cases hr
  · exact (Option.some.inj hr).symm
  · rename_i q hq
    exact absurd hq (hskip q)

theorem processPacket_eq {m : Memory} {pkt siz n : Nat} (hc : ¬ IsAnswer s m pkt siz)
    (hr : dnsProcessPacket n s m pkt siz = some s') : s' = s := by
  obtain ⟨uiFlags, hflags⟩ : ∃ f, f = mus2nus (get16 m (pkt + usFlags)) := ⟨_, rfl⟩
  simp only [dnsProcessPacket, ← hflags] at hr
  simp only [IsAnswer, ← hflags] at hc
  by_cases hid : get16 m (pkt + usTransactionId) = mus2nus s.usDnsTransactionIdCnt
  swap
  · rw [if_pos hid] at hr
    exact (Option.some.inj hr).symm
  rw [if_neg (not_not.mpr hid)] at hr
  by_cases hresponse : uiFlags &&& mskDnsOptionResponse = 0
  · rw [if_pos hresponse] at hr
    exact (Option.some.inj hr).symm
  rw [if_neg hresponse] at hr
  by_cases hopcode : uiFlags &&& mskDnsOptionOpcode = 0
  swap
  · rw [if_pos hopcode] at hr
    exact (Option.some.inj hr).symm
  rw [if_neg (not_not.mpr hopcode)] at hr
  by_cases htruncated : uiFlags &&& mskDnsOptionTruncated = 0
  swap
  · rw [if_pos htruncated] at hr
    exact (Option.some.inj hr).symm
  rw [if_neg (not_not.mpr htruncated)] at hr
  -- the header is that of an answer, so one of the other parts is not
  have hno := fun h => hc ⟨hid, hresponse, hopcode, htruncated, h⟩
  obtain ⟨hreply, hno⟩ := not_or.mp hno
  obtain ⟨hquestions, hno⟩ := not_or.mp hno
  obtain ⟨hrecords, hskip⟩ := not_or.mp hno
  rw [if_neg hreply, if_neg hquestions, if_neg hrecords] at hr
  apply processAnswers_eq _ hr
  intro q hq
  exact hskip ⟨n, q, hq⟩

/-- A packet that does not end the lookup changes nothing. -/
theorem receive_step {m : Memory} {pvData siz n : Nat} (hc : ¬ EndsLookup s m pvData siz)
    (hr : dnsRecHandler n s m pvData siz = some s') : s' = s := by
  rw [dnsRecHandler] at hr
  by_cases hsiz : siz < sizeofDnsPacket
  · rw [if_pos hsiz] at hr
    exact (Option.some.inj hr).symm
  · rw [if_neg hsiz] at hr
    cases hst : s.tState with
    | idle | ok | error | notFound =>
      rw [hst] at hr
      exact (Option.some.inj hr).symm
    | request =>
      rw [hst] at hr
      apply processPacket_eq _ hr
      intro hanswer
      exact hc ⟨hst, Nat.le_of_not_lt hsiz, hanswer⟩

theorem own_step {l : Label} (hi : Inv s) (hs : Step s l s') (hc : NoAnswer s l.1)
    (hown : ∀ op, l.1 ≠ .other op) :
    Inv s' ∧ others s'.atUdpPortAssoc = others s.atUdpPortAssoc := by
  cases hs with
  | request hs hr => exact request_step hi hs hr
  | receive hr =>
    obtain rfl := receive_step hc hr
    exact ⟨hi, rfl⟩
  | timer hr => exact timer_step hi hr
  | other hop => exact absurd rfl (hown _)

theorem step_inv {l : Label} (hi : Inv s) (hs : Step s l s') (hc : NoAnswer s l.1) : Inv s' := by
  by_cases hown : ∃ op, l.1 = .other op
  · cases hs with
    | other hop => exact Holding.foreign hi hop
    | request | receive | timer =>
      obtain ⟨op, hop⟩ := hown
      cases hop
  · exact (own_step hi hs hc (not_exists.mp hown)).1

theorem inv_init (hs : Init s) : Inv s := by
  obtain ⟨s₀, t₀, ulRandom, ht, rfl⟩ := hs
  constructor
  · simp only [dnsInit, ht]
    exact owns_init t₀
  · simp [dnsInit]

theorem Inv.ownsOne (hi : Inv s) : OwnsOne s := by
  constructor
  · intro hst
    obtain ⟨i, hp⟩ := Option.ne_none_iff_exists'.mp (hi.isOpen.mpr hst)
    refine ⟨i, (hi.owns i).mpr hp, ?_⟩
    intro j hj
    exact (Option.some.inj (hp.symm.trans ((hi.owns j).mp hj))).symm
  · intro hst i hown
    exact hst (hi.isOpen.mp (by simp [(hi.owns i).mp hown]))

theorem others_eq_inUse {tab : Table Handler} (hno : ∀ i, ¬ Owned tab i) (i : Fin 8) :
    others tab i = inUse (tab i) := by
  by_cases hh : (tab i).pfnRecHandler = .dnsRecHandler
  · have hp : (tab i).uiLocalPort = 0 := by
      by_contra hne
      exact hno i ⟨hne, hh⟩
    simp [others, otherUse, inUse, hp]
  · simp [others, otherUse, hh]

theorem register_of_not_owned {tab : Table Handler} (hno : ∀ i, ¬ Owned tab i) {i : Fin 8}
    (hi : others tab i = none) (a : Assoc Handler) : (udpRegisterPort tab a).2 ≠ none := by
  have hfree : (tab i).uiLocalPort = 0 := by
    by_contra hne
    rw [others_eq_inUse hno i, inUse, if_neg hne] at hi
    cases hi
  obtain ⟨j, -, hreg⟩ | ⟨hfull, -⟩ := udpRegisterPort_cases tab a
  · simp [hreg]
  · exact absurd hfree (hfull i)

/-- As long as no answer ends a lookup, the client has one entry of the port
list while a lookup is open and none otherwise: lookups leave the list as it
was, and there is an entry for the next one unless the other clients have
taken them all. -/
theorem dns_owns_port_entry {h : List Label} {s : Client}
    (hr : Reach Init (fun s l s' => Step s l s' ∧ NoAnswer s l.1) h s) :
    OwnsOne s ∧
    (s.tState ≠ .request →
      (∀ h' s', Reach (· = s) (fun s l s' => Step s l s' ∧ NoAnswer s l.1 ∧ ∀ op, l.1 ≠ .other op) h' s' →
        s'.tState ≠ .request → ∀ i, inUse (s'.atUdpPortAssoc i) = inUse (s.atUdpPortAssoc i)) ∧
      ((∃ i, others s.atUdpPortAssoc i = none) →
        (udpRegisterPort s.atUdpPortAssoc (dnsAssoc s.tEthernet)).2 ≠ none)) := by
  have hi : Inv s := hr.invariant (fun _ s => Inv s) (fun _ => inv_init)
    (fun _ _ _ _ hi hs => step_inv hi hs.1 hs.2)
  have hone := hi.ownsOne
  refine ⟨hone, fun hst => ⟨?_, ?_⟩⟩
  · intro h' s' hr' hst' i
    have hrun := hr'.invariant (fun _ s' => Inv s' ∧ others s'.atUdpPortAssoc = others s.atUdpPortAssoc)
      (by
        rintro s' rfl
        exact ⟨hi, rfl⟩)
      (by
        rintro _ s₁ l s₂ ⟨hi₁, ho₁⟩ ⟨hs, hc, hown⟩
        obtain ⟨hi₂, ho₂⟩ := own_step hi₁ hs hc hown
        exact ⟨hi₂, ho₂.trans ho₁⟩)
    obtain ⟨hi', ho⟩ := hrun
    rw [← others_eq_inUse (hi'.ownsOne.none hst') i, ← others_eq_inUse (hone.none hst) i, ho]
  · rintro ⟨i, hfree⟩
    exact register_of_not_owned (hone.none hst) hfree _

def exampleStatics : Client where
  tState := .idle
  usDnsTransactionIdCnt := 0
  ptAssoc := none
  ulLastGoodPacket := 0
  uiRetryCnt := 0
  pcHostName := none
  ulHostIp := 0
  atUdpPortAssoc := udpInit fun _ => ⟨0, 0, 0, .dnsRecHandler, 0⟩
  tEthernet := exampleEthernet

def exampleName : CString := ⟨[0x74, 0x66, 0x74, 0x70], fun _ => 0⟩

def exampleRequest : List ClientEvent × Int × Client :=
  exec (frames true false) (dnsRequest (dnsInit exampleStatics 0x1233) exampleName) []

def exampleAnswer : Memory := fun o =>
  (List.replicate 42 0 ++ [0x12, 0x34, 0x81, 0x80, 0, 1, 0, 1, 0, 0, 0, 0] ++
    [4, 0x74, 0x66, 0x74, 0x70, 0, 0, 1, 0, 1] ++
    [0xc0, 12, 0, 1, 0, 1, 0, 0, 0, 60, 0, 4, 192, 168, 0, 1] : List UInt8).getD o 0

theorem init_example : Init (dnsInit exampleStatics 0x1233) := ⟨exampleStatics, _, 0x1233, rfl, rfl⟩

theorem step_exampleRequest :
    Step (dnsInit exampleStatics 0x1233) (.request exampleName, exampleRequest.1) exampleRequest.2.2 :=
  .request (by decide) (exec_runs (frames true false) (dnsRequest (dnsInit exampleStatics 0x1233) exampleName) [])

/-- The lookup is over, but its entry stays in the port list. -/
theorem answered_lookup_keeps_entry : ¬ ∀ h s, Reach Init Step h s → OwnsOne s := by
  intro hall
  have heval : (dnsRecHandler 20 exampleRequest.2.2 exampleAnswer 0 38).map
      (fun s => (s.tState, s.ulHostIp, decide (Owned s.atUdpPortAssoc 0))) =
      some (.ok, ipAdr 192 168 0 1, true) := by
    decide +kernel
  obtain ⟨s, hs, hfields⟩ := Option.map_eq_some_iff.mp heval
  obtain ⟨hstate, hfields⟩ := Prod.mk.inj hfields
  obtain ⟨-, hown⟩ := Prod.mk.inj hfields
  have hreach : Reach Init Step [(.request exampleName, exampleRequest.1)] exampleRequest.2.2 :=
    (Reach.init init_example).step step_exampleRequest
  have hone := hall _ s (hreach.step (.receive hs))
  exact hone.none (by simp [hstate]) 0 (of_decide_eq_true hown)

theorem dns_owns_port_entry_request :
    ∃ h s, Reach Init (fun s l s' => Step s l s' ∧ NoAnswer s l.1) h s ∧ s.tState = .request ∧
      ∃! i, Owned s.atUdpPortAssoc i := by
  have hstate : exampleRequest.2.2.tState = .request := by decide +kernel
  have hreach : Reach Init (fun s l s' => Step s l s' ∧ NoAnswer s l.1)
      [(.request exampleName, exampleRequest.1)] exampleRequest.2.2 :=
    (Reach.init init_example).step ⟨step_exampleRequest, trivial⟩
  exact ⟨_, _, hreach, hstate, (dns_owns_port_entry hreach).1.unique hstate⟩

end FlashApp.Dns
