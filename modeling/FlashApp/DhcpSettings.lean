import FlashApp.DhcpRuns
import FlashApp.DhcpOptions

namespace FlashApp.Dhcp

open Bytes Eth Interaction UdpClient

/-- The handler takes a packet for the acknowledge that the client waits for.
It goes by the memory from the packet on and by what `dhcp_getOption` finds
there, which may be behind the payload. -/
structure Accepts (s : Client) (m : Memory) (ptDhcpPacket sizDhcpLength pucNetmask pucRouter : Nat) : Prop where
  request : s.tState = .request
  bootreply : isBootreply s m ptDhcpPacket = true
  messageType : ∃ pucOpt, dhcpGetOption m ptDhcpPacket sizDhcpLength dhcpOptDhcpMessageType = some (some pucOpt) ∧
    optByte m pucOpt 1 = 1 ∧ optByte m pucOpt 2 = dhcpMsgtypAck
  netmask : dhcpGetOption m ptDhcpPacket sizDhcpLength dhcpOptSubnetMask = some (some pucNetmask) ∧
    optByte m pucNetmask 1 = 4
  router : dhcpGetOption m ptDhcpPacket sizDhcpLength dhcpOptRouter = some (some pucRouter) ∧
    optByte m pucRouter 1 = 4

/-- A string that ends inside its field of `n` bytes. -/
def Terminated (n : Nat) (acName : List UInt8) : Prop := acName.length = n ∧ 0 ∈ acName

/-- The names and the address of the server belong together. -/
def TftpChanged (o o' : Ethernet) : Prop :=
  (o'.acTftpServerName = o.acTftpServerName ∧ o'.acTftpBootfileName = o.acTftpBootfileName ∧
    o'.ulTftpIp = o.ulTftpIp) ∨
  (Terminated 64 o'.acTftpServerName ∧ o'.acTftpServerName.headD 0 ≠ 0 ∧
    Terminated 128 o'.acTftpBootfileName ∧ o'.acTftpBootfileName.headD 0 ≠ 0 ∧ o'.ulTftpIp = 0)

/-- The options `o'` are `o` with the settings of an acknowledge. -/
structure Configured (ulNewIp ulNewNetmask ulNewGatewayIp : Nat) (o o' : Ethernet) : Prop where
  ulIp : o'.ulIp = ulNewIp
  ulNetmask : o'.ulNetmask = ulNewNetmask
  ulGatewayIp : o'.ulGatewayIp = ulNewGatewayIp
  tftp : TftpChanged o o'
  rest : o' = { o with
    ulIp := o'.ulIp
    ulNetmask := o'.ulNetmask
    ulGatewayIp := o'.ulGatewayIp
    ulDnsIp := o'.ulDnsIp
    acTftpServerName := o'.acTftpServerName
    acTftpBootfileName := o'.acTftpBootfileName
    ulTftpIp := o'.ulTftpIp }

variable {s s' : Client} {m : Memory} {pkt siz n : Nat}

theorem Terminated.overrideName {acName : List UInt8} (h : Terminated n acName) (ptOpt : Option Nat) :
    Terminated n (overrideName m n acName ptOpt) := by
  cases ptOpt with
  | none => exact h
  | some pucOpt =>
    simp only [Dhcp.overrideName]
    split_ifs with hsiz
    · refine ⟨?_, by simp⟩
      simp only [List.length_append, length_slice, List.length_cons, List.length_nil, List.length_drop, h.1]
      omega
    · exact h

theorem terminated_slice (m : Memory) (a n : Nat) : Terminated (n + 1) (slice m a n ++ [0]) :=
  ⟨by simp, by simp⟩

theorem configured_dhcpAccept (hserver : Terminated 64 s.acTftpServerName)
    (hfile : Terminated 128 s.acTftpBootfileName) (ulNewIp ulNewNetmask ulNewGatewayIp : Nat)
    (ptDns ptServer ptFile : Option Nat) :
    Configured ulNewIp ulNewNetmask ulNewGatewayIp s.tEthernet
      (dhcpAccept s m ulNewIp ulNewNetmask ulNewGatewayIp ptDns ptServer ptFile).tEthernet := by
  have hserver' := hserver.overrideName (m := m) ptServer
  have hfile' := hfile.overrideName (m := m) ptFile
  cases ptDns with
  | none =>
    simp only [dhcpAccept]
    split_ifs with hnames
    · exact ⟨rfl, rfl, rfl, .inr ⟨hserver', hnames.1, hfile', hnames.2, rfl⟩, rfl⟩
    · exact ⟨rfl, rfl, rfl, .inl ⟨rfl, rfl, rfl⟩, rfl⟩
  | some pucOpt =>
    simp only [dhcpAccept]
    by_cases hlen : 4 ≤ (optByte m pucOpt 1).toNat
    · simp only [if_pos hlen]
      split_ifs with hnames
      · exact ⟨rfl, rfl, rfl, .inr ⟨hserver', hnames.1, hfile', hnames.2, rfl⟩, rfl⟩
      · exact ⟨rfl, rfl, rfl, .inl ⟨rfl, rfl, rfl⟩, rfl⟩
    · simp only [if_neg hlen]
      split_ifs with hnames
      · exact ⟨rfl, rfl, rfl, .inr ⟨hserver', hnames.1, hfile', hnames.2, rfl⟩, rfl⟩
      · exact ⟨rfl, rfl, rfl, .inl ⟨rfl, rfl, rfl⟩, rfl⟩

/-- The wanted option is there and has the size of an address. -/
def IsIpOption (m : Memory) (pkt siz : Nat) (uiOption : UInt8) (pucOpt : Nat) : Prop :=
  dhcpGetOption m pkt siz uiOption = some (some pucOpt) ∧ optByte m pucOpt 1 = 4

theorem processAck_cases (h : dhcpProcessAck s m pkt siz = some s') :
    (∃ pucNetmask pucRouter, IsIpOption m pkt siz dhcpOptSubnetMask pucNetmask ∧
      IsIpOption m pkt siz dhcpOptRouter pucRouter ∧
      Configured (get32 m (pkt + ulYiAddr)) (optIp m pucNetmask) (optIp m pucRouter) s.tEthernet s'.tEthernet ∧
      s'.tState = .ok) ∨
    (∀ pucNetmask pucRouter, IsIpOption m pkt siz dhcpOptSubnetMask pucNetmask →
      ¬ IsIpOption m pkt siz dhcpOptRouter pucRouter) ∧ s'.tEthernet = s.tEthernet := by
  have hunique : ∀ {uiOption : UInt8} {p : Option Nat} {q : Nat}, dhcpGetOption m pkt siz uiOption = some p →
      IsIpOption m pkt siz uiOption q → p = some q ∧ optByte m q 1 = 4 := by
    intro uiOption p q hp hq
    exact ⟨Option.some.inj (hp.symm.trans hq.1), hq.2⟩
  simp only [dhcpProcessAck, Option.bind_eq_bind, Option.bind_eq_some_iff] at h
  obtain ⟨ptNetmask, hnetmask, h⟩ := h
  cases ptNetmask with
  | none =>
    obtain rfl := Option.some.inj h
    exact .inr ⟨fun p q hp _ => (nomatch (hunique hnetmask hp).1), rfl⟩
  | some pucNetmask =>
    simp only at h
    split_ifs at h with hlen
    · simp only [Option.bind_eq_some_iff] at h
      obtain ⟨ptRouter, hrouter, h⟩ := h
      cases ptRouter with
      | none =>
        obtain rfl := Option.some.inj h
        exact .inr ⟨fun p q _ hq => (nomatch (hunique hrouter hq).1), rfl⟩
      | some pucRouter =>
        simp only at h
        split_ifs at h with hlen'
        · simp only [Option.bind_eq_some_iff] at h
          obtain ⟨ptDns, -, ptServer, -, ptFile, -, h⟩ := h
          obtain rfl := Option.some.inj h
          refine .inl ⟨pucNetmask, pucRouter, ⟨hnetmask, hlen⟩, ⟨hrouter, hlen'⟩, ?_, rfl⟩
          exact configured_dhcpAccept
            (s := { s with
              acTftpServerName := slice m (pkt + acSName) 63 ++ [0]
              acTftpBootfileName := slice m (pkt + acFile) 127 ++ [0] })
            (terminated_slice m _ 63) (terminated_slice m _ 127) _ _ _ _ _ _
        · obtain rfl := Option.some.inj h
          refine .inr ⟨fun p q _ hq => ?_, rfl⟩
          obtain ⟨hpq, hq⟩ := hunique hrouter hq
          obtain rfl := Option.some.inj hpq
          exact hlen' hq
    · obtain rfl := Option.some.inj h
      refine .inr ⟨fun p q hp _ => ?_, rfl⟩
      obtain ⟨hpq, hp⟩ := hunique hnetmask hp
      obtain rfl := Option.some.inj hpq
      exact hlen hp

theorem processReply_cases (hst : s.tState = .request) (h : dhcpProcessReply s m pkt siz = some s') :
    (∃ pucNetmask pucRouter, Accepts s m pkt siz pucNetmask pucRouter ∧
      Configured (get32 m (pkt + ulYiAddr)) (optIp m pucNetmask) (optIp m pucRouter) s.tEthernet s'.tEthernet ∧
      s'.tState = .ok) ∨
    (∀ pucNetmask pucRouter, ¬ Accepts s m pkt siz pucNetmask pucRouter) ∧ s'.tEthernet = s.tEthernet := by
  have hignored : ∀ {ptOpt : Option Nat},
      dhcpGetOption m pkt siz dhcpOptDhcpMessageType = some ptOpt →
      (∀ pucOpt, ptOpt = some pucOpt → optByte m pucOpt 1 = 1 → optByte m pucOpt 2 ≠ dhcpMsgtypAck) →
      ∀ pucNetmask pucRouter, ¬ Accepts s m pkt siz pucNetmask pucRouter := by
    rintro ptOpt hopt hmiss pucNetmask pucRouter hack
    obtain ⟨pucOpt, hp, hone, htype⟩ := hack.messageType
    exact hmiss pucOpt (Option.some.inj (hopt.symm.trans hp)) hone htype
  simp only [dhcpProcessReply] at h
  split_ifs at h with hboot
  · simp only [Option.bind_eq_bind, Option.bind_eq_some_iff] at h
    obtain ⟨ptOpt, hopt, h⟩ := h
    cases ptOpt with
    | none =>
      obtain rfl := Option.some.inj h
      exact .inr ⟨hignored hopt (fun _ h => nomatch h), rfl⟩
    | some pucOpt =>
      simp only at h
      split_ifs at h with hone hack hnak
      · obtain ⟨pn, pr, hpn, hpr, hconf⟩ | ⟨hmiss, hsame⟩ := processAck_cases h
        · exact .inl ⟨pn, pr, ⟨hst, hboot, ⟨pucOpt, hopt, hone, hack⟩, hpn, hpr⟩, hconf⟩
        · exact .inr ⟨fun pn pr hack => hmiss pn pr hack.netmask hack.router, hsame⟩
      · obtain rfl := Option.some.inj h
        refine .inr ⟨hignored hopt ?_, rfl⟩
        rintro _ ⟨⟩ _ htype
        exact hack htype
      · obtain rfl := Option.some.inj h
        refine .inr ⟨hignored hopt ?_, rfl⟩
        rintro _ ⟨⟩ _ htype
        exact hack htype
      · obtain rfl := Option.some.inj h
        refine .inr ⟨hignored hopt ?_, rfl⟩
        rintro _ ⟨⟩ h1
        exact absurd h1 hone
  · obtain rfl := Option.some.inj h
    exact .inr ⟨fun pn pr hack => hboot hack.bootreply, rfl⟩

/-- In the other states no packet changes the options. -/
theorem tEthernet_of_runs {pvData : Nat} {t : List ClientEvent} (hst : s.tState ≠ .request)
    (hr : Runs (dhcpRecHandler s m pvData siz) t (some s')) : s'.tEthernet = s.tEthernet := by
  cases hstate : s.tState with
  | idle | error | ok =>
    simp only [dhcpRecHandler, hstate] at hr
    obtain ⟨-, hr⟩ := hr
    obtain rfl := Option.some.inj hr
    rfl
  | request => exact absurd hstate hst
  | discover =>
    simp only [dhcpRecHandler, hstate] at hr
    split at hr
    · cases hr.2
    · obtain ⟨-, hr⟩ := hr
      obtain rfl := Option.some.inj hr
      rfl
    · split at hr
      · cases hr.2
      · simp only [runs_bind] at hr
        obtain ⟨iResult, t₁, t₂, -, -, hr⟩ := hr
        split_ifs at hr
        · simp only [runs_bind] at hr
          obtain ⟨ms, t₃, t₄, -, -, -, hr⟩ := hr
          obtain rfl := Option.some.inj hr
          rfl
        · obtain ⟨-, hr⟩ := hr
          obtain rfl := Option.some.inj hr
          rfl

/-- The lengths that come from the UDP layer. A UDP length below the size of
its header wraps around. -/
def IsUdpLength (siz : Nat) : Prop := siz + 8 < 2 ^ 16 ∨ 2 ^ 32 ≤ siz + 8 ∧ siz < 2 ^ 32

/-- After a wrap around the end pointer is in front of the options. -/
theorem dhcpGetOption_of_wrapped (hpkt : pkt + 240 < 2 ^ 32) (hlo : 2 ^ 32 ≤ siz + 8) (hhi : siz < 2 ^ 32)
    (uiOption : UInt8) : dhcpGetOption m pkt siz uiOption = some none := by
  have hcnt : add32 pkt sizeofDhcpPacket = pkt + 236 := add32_of_lt (by unfold sizeofDhcpPacket; omega)
  have hend : add32 (pkt + 236) siz = pkt + 236 + siz - 2 ^ 32 := add32_of_ge (by omega) hhi (by omega)
  have hopts : add32 (pkt + 236) 4 = pkt + 240 := add32_of_lt (by omega)
  simp only [dhcpGetOption, hcnt, hend, hopts]
  exact if_neg (by omega)

theorem exists_dhcpGetOption_of_isUdpLength (hpkt : pkt + 2 ^ 16 + 493 < 2 ^ 32) (hsiz : IsUdpLength siz)
    (uiOption : UInt8) : ∃ r, dhcpGetOption m pkt siz uiOption = some r := by
  obtain hsiz | ⟨hlo, hhi⟩ := hsiz
  · exact exists_dhcpGetOption (show pkt + siz + 493 < 2 ^ 32 by omega) m uiOption
  · exact ⟨none, dhcpGetOption_of_wrapped (by omega) hlo hhi uiOption⟩

theorem exists_dhcpProcessAck (hget : ∀ uiOption, ∃ r, dhcpGetOption m pkt siz uiOption = some r) (s : Client) :
    ∃ s', dhcpProcessAck s m pkt siz = some s' := by
  obtain ⟨ptNetmask, hnetmask⟩ := hget dhcpOptSubnetMask
  obtain ⟨ptRouter, hrouter⟩ := hget dhcpOptRouter
  obtain ⟨ptDns, hdns⟩ := hget dhcpOptDomainNameServer
  obtain ⟨ptServer, hserver⟩ := hget dhcpOptTftpServerName
  obtain ⟨ptFile, hfile⟩ := hget dhcpOptBootfileName
  simp only [dhcpProcessAck, hnetmask, hrouter, hdns, hserver, hfile, Option.bind_eq_bind, Option.bind_some]
  cases ptNetmask with
  | none => exact ⟨_, rfl⟩
  | some pucNetmask =>
    dsimp only
    split_ifs
    · cases ptRouter with
      | none => exact ⟨_, rfl⟩
      | some pucRouter =>
        dsimp only
        split_ifs
        · exact ⟨_, rfl⟩
        · exact ⟨_, rfl⟩
    · exact ⟨_, rfl⟩

theorem exists_dhcpProcessReply (hget : ∀ uiOption, ∃ r, dhcpGetOption m pkt siz uiOption = some r) (s : Client) :
    ∃ s', dhcpProcessReply s m pkt siz = some s' := by
  obtain ⟨ptOpt, hopt⟩ := hget dhcpOptDhcpMessageType
  simp only [dhcpProcessReply, hopt, Option.bind_eq_bind, Option.bind_some]
  split_ifs
  · cases ptOpt with
    | none => exact ⟨_, rfl⟩
    | some pucOpt =>
      dsimp only
      split_ifs
      · exact exists_dhcpProcessAck hget _
      · exact ⟨_, rfl⟩
      · exact ⟨_, rfl⟩
      · exact ⟨_, rfl⟩
  · exact ⟨_, rfl⟩

theorem exists_isOffer (hget : ∀ uiOption, ∃ r, dhcpGetOption m pkt siz uiOption = some r) (s : Client) :
    ∃ b, isOffer s m pkt siz = some b := by
  obtain ⟨ptOpt, hopt⟩ := hget dhcpOptDhcpMessageType
  rw [isOffer, hopt]
  split_ifs
  · exact ⟨_, rfl⟩
  · exact ⟨_, rfl⟩

theorem exists_of_runs {pvData : Nat} {t : List ClientEvent} {r : Option Client}
    (hget : ∀ uiOption, ∃ r, dhcpGetOption m (pvData + uUdpData) siz uiOption = some r)
    (hr : Runs (dhcpRecHandler s m pvData siz) t r) : ∃ s', r = some s' := by
  cases hstate : s.tState with
  | idle | error | ok =>
    simp only [dhcpRecHandler, hstate] at hr
    exact ⟨s, hr.2⟩
  | request =>
    simp only [dhcpRecHandler, hstate] at hr
    obtain ⟨s', hs'⟩ := exists_dhcpProcessReply hget s
    exact ⟨s', hr.2.trans hs'⟩
  | discover =>
    obtain ⟨b, hb⟩ := exists_isOffer hget s
    obtain ⟨ptServer, hserver⟩ := hget dhcpOptServerIdentifier
    simp only [dhcpRecHandler, hstate, hb, hserver] at hr
    cases b with
    | false => exact ⟨s, hr.2⟩
    | true =>
      simp only [runs_bind] at hr
      obtain ⟨iResult, t₁, t₂, -, -, hr⟩ := hr
      split_ifs at hr
      · simp only [runs_bind] at hr
        obtain ⟨ms, t₃, t₄, -, -, hr⟩ := hr
        exact ⟨_, hr.2⟩
      · exact ⟨_, hr.2⟩

/-- What a packet does: it changes the settings as a whole, or not at all. -/
theorem recHandler_cases {pvData : Nat} {t : List ClientEvent}
    (hr : Runs (dhcpRecHandler s m pvData siz) t (some s')) :
    (∃ pucNetmask pucRouter, Accepts s m (pvData + uUdpData) siz pucNetmask pucRouter ∧
      Configured (get32 m (pvData + uUdpData + ulYiAddr)) (optIp m pucNetmask) (optIp m pucRouter)
        s.tEthernet s'.tEthernet ∧ s'.tState = .ok) ∨
    (∀ pucNetmask pucRouter, ¬ Accepts s m (pvData + uUdpData) siz pucNetmask pucRouter) ∧
      s'.tEthernet = s.tEthernet := by
  by_cases hst : s.tState = .request
  · simp only [dhcpRecHandler, hst] at hr
    exact processReply_cases hst hr.2.symm
  · exact .inr ⟨fun pn pr hack => hst hack.request, tEthernet_of_runs hst hr⟩

theorem recHandler_returns {pvData : Nat} {t : List ClientEvent} {r : Option Client}
    (hr : Runs (dhcpRecHandler s m pvData siz) t r) (hpv : pvData + 2 ^ 17 ≤ 2 ^ 32) (hsiz : IsUdpLength siz) :
    ∃ s', r = some s' := by
  have hpkt : pvData + uUdpData + 2 ^ 16 + 493 < 2 ^ 32 := by
    unfold uUdpData
    omega
  exact exists_of_runs (exists_dhcpGetOption_of_isUdpLength hpkt hsiz) hr

end FlashApp.Dhcp
