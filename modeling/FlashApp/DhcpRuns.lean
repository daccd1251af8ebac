import FlashApp.Dhcp

namespace FlashApp.Dhcp

open Bytes Eth Interaction Udp UdpClient Machine

inductive Op where
  | request
  | receive (m : Memory) (pvData sizDhcpLength : Nat)
  | timer
  | other (op : Udp.Op Handler)

/-- A call into the client, with the calls it makes itself. -/
abbrev Label := Op × List ClientEvent

def DhcpState.Open : DhcpState → Prop
  | .discover | .request => True
  | .idle | .error | .ok => False

/-- A request is only made while no other one is open. A packet can come at any
time, with any contents. -/
inductive Step : Client → Label → Client → Prop
  | request {s s' : Client} {t : List ClientEvent} (hs : ¬ s.tState.Open)
      (hr : Runs (dhcpRequest s) t s') : Step s (.request, t) s'
  | receive {s s' : Client} {m : Memory} {pvData siz : Nat} {t : List ClientEvent}
      (hr : Runs (dhcpRecHandler s m pvData siz) t (some s')) : Step s (.receive m pvData siz, t) s'
  | timer {s s' : Client} {t : List ClientEvent} (hr : Runs (dhcpTimer s) t s') : Step s (.timer, t) s'
  | other {s : Client} {op : Udp.Op Handler} (hop : Foreign .dhcpRecHandler s.atUdpPortAssoc op) :
      Step s (.other op, []) { s with atUdpPortAssoc := Udp.step s.atUdpPortAssoc op }

def Init (s : Client) : Prop :=
  ∃ (s₀ : Client) (t₀ : Table Handler), s₀.atUdpPortAssoc = udpInit t₀ ∧ s = dhcpInit s₀

/-- The client holds an association that is registered for it. -/
def HoldsAssoc (s : Client) : Prop :=
  ∃ i, s.ptAssoc = some i ∧ Valid .dhcpRecHandler (some (s.atUdpPortAssoc i))

/-- There is an empty frame for the answer to an offer. -/
def FrameForOffer (s : Client) : Label → Prop
  | (.receive m pvData siz, t) =>
    s.tState = .discover → isOffer s m (pvData + uUdpData) siz = some true →
      ⟨.ethGetEmptyPacket, false⟩ ∉ t
  | _ => True

def Inv (s : Client) : Prop :=
  Holding .dhcpRecHandler s.atUdpPortAssoc s.ptAssoc s.tState.Open

variable {s s' : Client} {t : List ClientEvent}

theorem error_closed : ¬ DhcpState.Open .error := id

theorem ok_closed : ¬ DhcpState.Open .ok := id

theorem Inv.close (hi : Inv s) (hp : s'.ptAssoc = s.ptAssoc)
    (ht : s'.atUdpPortAssoc = s.atUdpPortAssoc) {st : DhcpState} (hst : ¬ st.Open) :
    Inv (dhcpClose s' st) := by
  simp only [Inv, dhcpClose, dhcpCleanup, hp, ht]
  exact Holding.close hi hst

theorem Inv.keep (hi : Inv s) (hp : s'.ptAssoc = s.ptAssoc)
    (ht : s'.atUdpPortAssoc = s.atUdpPortAssoc) (hst : s'.tState.Open ↔ s.tState.Open) : Inv s' := by
  simp only [Inv, hp, ht]
  exact Holding.congr hi hst

theorem processAck_inv (hi : Inv s) {m : Memory} {pkt siz : Nat}
    (h : dhcpProcessAck s m pkt siz = some s') : Inv s' := by
  simp only [dhcpProcessAck, Option.bind_eq_bind, Option.bind_eq_some_iff] at h
  obtain ⟨ptNetmask, -, h⟩ := h
  cases ptNetmask with
  | none =>
    obtain rfl := Option.some.inj h
    exact hi.close (by rfl) (by rfl) error_closed
  | some pucNetmask =>
    simp only at h
    split at h
    · simp only [Option.bind_eq_some_iff] at h
      obtain ⟨ptRouter, -, h⟩ := h
      cases ptRouter with
      | none =>
        obtain rfl := Option.some.inj h
        exact hi.close (by rfl) (by rfl) error_closed
      | some pucRouter =>
        simp only at h
        split at h
        · simp only [Option.bind_eq_some_iff] at h
          obtain ⟨ptDns, -, ptServerName, -, ptBootfileName, -, h⟩ := h
          obtain rfl := Option.some.inj h
          exact hi.close (by rfl) (by rfl) ok_closed
        · obtain rfl := Option.some.inj h
          exact hi.close (by rfl) (by rfl) error_closed
    · obtain rfl := Option.some.inj h
      exact hi.close (by rfl) (by rfl) error_closed

theorem processReply_inv (hi : Inv s) {m : Memory} {pkt siz : Nat}
    (h : dhcpProcessReply s m pkt siz = some s') : Inv s' := by
  simp only [dhcpProcessReply] at h
  split at h
  · simp only [Option.bind_eq_bind, Option.bind_eq_some_iff] at h
    obtain ⟨ptMessageType, -, h⟩ := h
    cases ptMessageType with
    | none =>
      obtain rfl := Option.some.inj h
      exact hi.keep (by rfl) (by rfl) Iff.rfl
    | some pucOpt =>
      simp only at h
      split_ifs at h
      · exact processAck_inv (hi.keep (by rfl) (by rfl) Iff.rfl) h
      · obtain rfl := Option.some.inj h
        exact hi.close (by rfl) (by rfl) error_closed
      · obtain rfl := Option.some.inj h
        exact hi.keep (by rfl) (by rfl) Iff.rfl
      · obtain rfl := Option.some.inj h
        exact hi.keep (by rfl) (by rfl) Iff.rfl
  · obtain rfl := Option.some.inj h
    exact hi

theorem timeout_step (hi : Inv s) (ho : s.tState.Open) {d : List UInt8}
    (hr : Runs (dhcpTimeout s (sendPacket s.atUdpPortAssoc s.ptAssoc d)) t s') :
    Inv s' ∧ SendsValid .dhcpRecHandler t := by
  simp only [dhcpTimeout, runs_bind] at hr
  obtain ⟨b, t₁, t₂, rfl, ht, hr⟩ := hr
  obtain rfl := runs_systimeHandleIsElapsed.mp ht
  cases b with
  | false =>
    obtain ⟨rfl, rfl⟩ := hr
    exact ⟨hi, by simp [SendsValid]⟩
  | true =>
    simp only [↓reduceIte] at hr
    split at hr
    · simp only [runs_bind] at hr
      obtain ⟨r, t₃, t₄, rfl, hsend, ms, t₅, t₆, rfl, hms, rfl, rfl⟩ := hr
      obtain rfl := runs_systimeGetMs.mp hms
      have hv := Holding.sendsValid hi ho hsend
      exact ⟨hi.keep (by rfl) (by rfl) Iff.rfl, by simpa [SendsValid] using hv⟩
    · obtain ⟨rfl, rfl⟩ := hr
      exact ⟨hi.close (by rfl) (by rfl) error_closed, by simp [SendsValid]⟩

theorem timer_step (hi : Inv s) (hr : Runs (dhcpTimer s) t s') : Inv s' ∧ SendsValid .dhcpRecHandler t := by
  cases hst : s.tState with
  | idle | error | ok =>
    simp only [dhcpTimer, hst] at hr
    obtain ⟨rfl, rfl⟩ := hr
    exact ⟨hi, .nil⟩
  | discover | request =>
    simp only [dhcpTimer, hst] at hr
    exact timeout_step hi (by rw [hst]; trivial) hr

theorem request_step (hi : Inv s) (hs : ¬ s.tState.Open) (hr : Runs (dhcpRequest s) t s') :
    Inv s' ∧ SendsValid .dhcpRecHandler t := by
  have howns := Holding.register hi hs
    (a := ⟨mus2nus dhcpDiscoverSrcPort, dhcpDiscoverDstIp, mus2nus dhcpDiscoverDstPort, .dhcpRecHandler, 0⟩)
    (by decide) rfl
  simp only [dhcpRequest] at hr
  generalize udpRegisterPort s.atUdpPortAssoc _ = q at howns hr
  obtain ⟨tab, ptr⟩ := q
  cases ptr with
  | none =>
    obtain ⟨rfl, rfl⟩ := hr
    refine ⟨⟨howns, ?_⟩, .nil⟩
    simpa using hs
  | some i =>
    simp only [runs_bind] at hr
    obtain ⟨r, t₁, t₂, rfl, hsend, hr⟩ := hr
    obtain ⟨rfl, rfl⟩ | ⟨rfl, rfl⟩ := runs_sendPacket.mp hsend
    · simp only [↓reduceIte, runs_bind] at hr
      obtain ⟨ms, t₃, t₄, rfl, hms, rfl, rfl⟩ := hr
      obtain rfl := runs_systimeGetMs.mp hms
      refine ⟨⟨howns, ?_⟩, ?_⟩
      · simp [DhcpState.Open]
      · simpa [SendsValid] using howns.valid (by simp)
    · obtain ⟨rfl, rfl⟩ := hr
      refine ⟨⟨owns_unregister howns, ?_⟩, by simp [SendsValid]⟩
      simp [dhcpClose, dhcpCleanup, cleanup_eq, DhcpState.Open]

theorem receive_step (hi : Inv s) {m : Memory} {pvData siz : Nat}
    (hc : FrameForOffer s (.receive m pvData siz, t))
    (hr : Runs (dhcpRecHandler s m pvData siz) t (some s')) : Inv s' ∧ SendsValid .dhcpRecHandler t := by
  cases hst : s.tState with
  | idle | error | ok =>
    simp only [dhcpRecHandler, hst] at hr
    obtain ⟨rfl, hr⟩ := hr
    obtain rfl := Option.some.inj hr
    exact ⟨hi, .nil⟩
  | request =>
    simp only [dhcpRecHandler, hst] at hr
    obtain ⟨rfl, hr⟩ := hr
    exact ⟨processReply_inv hi hr.symm, .nil⟩
  | discover =>
    have hopen : s.tState.Open := by
      rw [hst]
      trivial
    simp only [dhcpRecHandler, hst] at hr
    split at hr
    · cases hr.2
    · obtain ⟨rfl, hr⟩ := hr
      obtain rfl := Option.some.inj hr
      exact ⟨hi, .nil⟩
    · rename_i hoffer
      split at hr
      · cases hr.2
      · simp only [runs_bind] at hr
        obtain ⟨r, t₁, t₂, rfl, hsend, hr⟩ := hr
        obtain ⟨rfl, rfl⟩ | ⟨rfl, rfl⟩ := runs_sendPacket.mp hsend
        · simp only [↓reduceIte, runs_bind] at hr
          obtain ⟨ms, t₃, t₄, rfl, hms, rfl, hr⟩ := hr
          obtain rfl := runs_systimeGetMs.mp hms
          obtain rfl := Option.some.inj hr
          refine ⟨hi.keep rfl rfl ?_, ?_⟩
          · simp [hst, DhcpState.Open]
          · simpa [SendsValid] using Holding.valid hi hopen
        · exact absurd (by simp) (hc hst hoffer)

theorem step_inv {l : Label} (hi : Inv s) (hs : Step s l s') (hc : FrameForOffer s l) :
    Inv s' ∧ SendsValid .dhcpRecHandler l.2 := by
  cases hs with
  | request hs hr => exact request_step hi hs hr
  | receive hr => exact receive_step hi hc hr
  | timer hr => exact timer_step hi hr
  | other hop => exact ⟨Holding.foreign hi hop, .nil⟩

theorem inv_init (hs : Init s) : Inv s := by
  obtain ⟨s₀, t₀, ht, rfl⟩ := hs
  constructor
  · simp only [dhcpInit, ht]
    exact owns_init t₀
  · simp [dhcpInit, DhcpState.Open]

/-- As long as there is an empty frame whenever an offer arrives, the client
holds its association exactly in the states in which it needs it, and sends on
no other one. -/
theorem dhcp_holds_association {h : List Label} {s : Client}
    (hr : Reach Init (fun s l s' => Step s l s' ∧ FrameForOffer s l) h s) :
    (HoldsAssoc s ↔ s.tState.Open) ∧ Owns .dhcpRecHandler s.atUdpPortAssoc s.ptAssoc ∧
      ∀ l ∈ h, SendsValid .dhcpRecHandler l.2 := by
  obtain ⟨hi, hv⟩ := hr.invariant_labels Inv (fun l => SendsValid .dhcpRecHandler l.2) (fun _ => inv_init)
    (fun s l s' hi hs => step_inv hi hs.1 hs.2)
  exact ⟨Holding.exists_valid_iff hi, hi.owns, hv⟩

def exampleStatics : Client where
  tState := .idle
  ptAssoc := none
  ulLastGoodPacket := 0
  uiRetryCnt := 0
  ulXId := 0
  ulRequestIp := 0
  aucServerIdentifier := List.replicate 4 0
  acTftpServerName := List.replicate 64 0
  acTftpBootfileName := List.replicate 128 0
  atUdpPortAssoc := udpInit fun _ => ⟨0, 0, 0, .dhcpRecHandler, 0⟩
  tEthernet := exampleEthernet

def exampleDiscover : List ClientEvent × Client :=
  exec (frames true false) (dhcpRequest (dhcpInit exampleStatics)) []

def exampleOffer : Memory := fun o =>
  (List.replicate 42 0 ++ [2, 1, 6, 0, 3, 0, 0, 0] ++ List.replicate 8 0 ++ [192, 168, 0, 10] ++
    List.replicate 8 0 ++ [2, 0, 0, 0, 0, 10] ++ List.replicate 202 0 ++
    aucDhcpMagic ++ [53, 1, 2, 54, 4, 192, 168, 0, 1, 255] : List UInt8).getD o 0

def exampleReceive (bFrame : Bool) : List ClientEvent × Option Client :=
  exec (frames bFrame false) (dhcpRecHandler exampleDiscover.2 exampleOffer 0 250) []

theorem reach_exampleDiscover : Reach Init Step [(.request, exampleDiscover.1)] exampleDiscover.2 :=
  .step (.init ⟨exampleStatics, _, rfl, rfl⟩)
    (.request id (exec_runs (frames true false) (dhcpRequest (dhcpInit exampleStatics)) []))

theorem step_receive_of_exec {o : Oracle Call Call.Ret} {m : Memory} {pvData siz : Nat}
    (h : (exec o (dhcpRecHandler s m pvData siz) []).2 = some s') :
    Step s (.receive m pvData siz, (exec o (dhcpRecHandler s m pvData siz) []).1) s' := by
  apply Step.receive
  rw [← h]
  exact exec_runs _ _ _

/-- Without an empty frame the client gives its association back but still
waits for an offer. -/
theorem discover_without_association :
    ¬ ∀ h s, Reach Init Step h s → (HoldsAssoc s ↔ s.tState.Open) := by
  intro hall
  have heval : (exampleReceive false).2.map (fun s => (s.tState, s.ptAssoc)) = some (.discover, none) := by
    decide +kernel
  obtain ⟨s, hs, hfields⟩ := Option.map_eq_some_iff.mp heval
  obtain ⟨hstate, hassoc⟩ := Prod.mk.inj hfields
  have hreach := reach_exampleDiscover.step (step_receive_of_exec hs)
  obtain ⟨i, hi, -⟩ := (hall _ s hreach).mpr (by rw [hstate]; trivial)
  rw [hassoc] at hi
  cases hi

theorem dhcp_holds_association_offer :
    ∃ h s, Reach Init (fun s l s' => Step s l s' ∧ FrameForOffer s l) h s ∧ s.tState = .request ∧
      HoldsAssoc s := by
  have heval : (exampleReceive true).2.map (fun s => s.tState) = some .request := by
    decide +kernel
  obtain ⟨s, hs, hstate⟩ := Option.map_eq_some_iff.mp heval
  have hdiscover : Reach Init (fun s l s' => Step s l s' ∧ FrameForOffer s l)
      [(.request, exampleDiscover.1)] exampleDiscover.2 :=
    .step (.init ⟨exampleStatics, _, rfl, rfl⟩)
      ⟨.request id (exec_runs (frames true false) (dhcpRequest (dhcpInit exampleStatics)) []), trivial⟩
  have hreach := hdiscover.step ⟨step_receive_of_exec hs, fun _ _ => frames_packet true⟩
  refine ⟨_, s, hreach, hstate, (dhcp_holds_association hreach).1.mpr ?_⟩
  rw [hstate]
  trivial

end FlashApp.Dhcp
