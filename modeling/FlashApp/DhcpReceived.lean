import FlashApp.DhcpAcknowledge

namespace FlashApp.Dhcp

open Bytes Eth Interaction UdpClient Tlv

variable {s : Client} {m : Memory} {pvData pkt siz : Nat} {aucData aucNetmask aucRouter value : List UInt8}

theorem options_of_holds (hm : Holds m pkt aucData) : slice m (pkt + 240) (aucData.length - 4) =
    aucData.drop 240 ++ slice m (pkt + 240 + (aucData.length - 240))
      (aucData.length - 4 - (aucData.drop 240).length) := by
  have hdrop : aucData.drop 240 = slice m (pkt + 240) (aucData.length - 240) := by
    have h := slice_drop m pkt aucData.length 240
    rwa [hm] at h
  have hlen : aucData.length - 4 = aucData.length - 240 + (aucData.length - 4 - (aucData.length - 240)) := by omega
  rw [hdrop, length_slice, ← slice_add, ← hlen]

theorem fixed_of_holds (hm : Holds m pkt aucData) : ∃ rest, slice m pkt 240 = aucData.take 240 ++ rest := by
  by_cases hle : 240 ≤ aucData.length
  · refine ⟨[], ?_⟩
    rw [List.append_nil, ← slice_take m pkt hle, hm]
  · obtain ⟨k, hk⟩ := Nat.exists_eq_add_of_le (Nat.le_of_not_le hle)
    refine ⟨slice m (pkt + aucData.length) k, ?_⟩
    rw [hk, slice_add, hm, List.take_of_length_le (by omega)]

theorem yiAddr_of_holds (hm : Holds m pkt aucData) (hlen : 20 ≤ aucData.length) :
    slice m (pkt + ulYiAddr) 4 = (aucData.drop ulYiAddr).take 4 := by
  have hdrop := slice_drop m pkt aucData.length ulYiAddr
  rw [hm] at hdrop
  rw [hdrop, slice_take _ _ (by rw [ulYiAddr]; omega)]

theorem Looks.completable (h : Looks s m pkt aucData.length) (hm : Holds m pkt aucData) : Completable s aucData := by
  obtain ⟨hreq, hsiz, hxid, hfits, hyiaddr, hoptions⟩ := h
  obtain ⟨rest, hrest⟩ := fixed_of_holds hm
  rw [hrest] at hfits
  rw [options_of_holds hm] at hoptions
  refine ⟨⟨hxid, fits_of_append hfits, fun hlen => ?_⟩, ?_⟩
  · rwa [← yiAddr_of_holds hm hlen]
  · rw [completable_iff length_ackPattern_lt]
    exact ⟨_, length_slice _ _ _, Nat.zero_le _, hoptions⟩

theorem IsAcknowledge.looks (hack : IsAcknowledge s aucData aucNetmask aucRouter) (hm : Holds m pkt aucData)
    (htype : Tlv.find dhcpOptDhcpMessageType 0 (aucData.drop 240) = some [dhcpMsgtypAck])
    (hmask : Tlv.find dhcpOptSubnetMask 0 (aucData.drop 240) = some aucNetmask)
    (hrouter : Tlv.find dhcpOptRouter 0 (aucData.drop 240) = some aucRouter) : Looks s m pkt aucData.length := by
  have hlen := hack.length
  refine ⟨hack.request, by omega, hack.replies.ulXId_lt, ?_, ?_, ?_⟩
  · rw [← slice_take m pkt hlen, hm]
    exact hack.replies.fits
  · rw [yiAddr_of_holds hm (by omega)]
    exact hack.replies.yiAddr (by omega)
  · rw [options_of_holds hm, meets_ackOptions]
    exact ⟨find_append htype, ⟨_, find_append hmask, hack.length_netmask⟩, _, find_append hrouter, hack.length_router⟩

theorem ipAdr_eq_le32 (b0 b1 b2 b3 : UInt8) : ipAdr b0.toNat b1.toNat b2.toNat b3.toNat = le32 b0 b1 b2 b3 := by
  rw [ipAdr, le32, Nat.or_comm _ b0.toNat, Nat.or_comm _ (b1.toNat <<< 8), Nat.or_comm (b3.toNat <<< 24),
    ← Nat.or_assoc, ← Nat.or_assoc]

theorem get32_eq_ipOf (m : Memory) (a : Nat) : get32 m a = ipOf (slice m a 4) := (ipAdr_eq_le32 _ _ _ _).symm

theorem toLe32_ipOf (h : value.length = 4) : toLe32 (ipOf value) = value := by
  obtain ⟨b0, b1, b2, b3, rfl⟩ := List.length_eq_four.mp h
  exact (congrArg toLe32 (ipAdr_eq_le32 b0 b1 b2 b3)).trans (toLe32_le32 b0 b1 b2 b3)

theorem ipOf_injective {v w : List UInt8} (hv : v.length = 4) (hw : w.length = 4) (h : ipOf v = ipOf w) : v = w := by
  rw [← toLe32_ipOf hv, h, toLe32_ipOf hw]

theorem IsAcknowledge.ip_ne_zero (hack : IsAcknowledge s aucData aucNetmask aucRouter) :
    ipOf ((aucData.drop ulYiAddr).take 4) ≠ 0 := by
  intro hzero
  have hlen := hack.length
  have hfour : ((aucData.drop ulYiAddr).take 4).length = 4 := by
    rw [List.length_take_of_le]
    rw [List.length_drop, ulYiAddr]
    omega
  have hbytes := toLe32_ipOf hfour
  rw [hzero] at hbytes
  exact hack.replies.yiAddr (by omega) hbytes.symm

theorem inMemory_of_delivered (hpv : pvData + 2 ^ 17 ≤ 2 ^ 32) (hsiz : aucData.length + 8 < 2 ^ 16) :
    InMemory (pvData + uUdpData) aucData.length := by
  unfold InMemory uUdpData
  omega

theorem not_accepts_of_wrapped {pucNetmask pucRouter : Nat} (hpkt : pkt + 240 < 2 ^ 32) (hlo : 2 ^ 32 ≤ siz + 8)
    (hhi : siz < 2 ^ 32) : ¬ Accepts s m pkt siz pucNetmask pucRouter := by
  intro hacc
  have hopt := hacc.router.1
  rw [dhcpGetOption_of_wrapped hpkt hlo hhi] at hopt
  cases hopt

theorem inMemory_of_accepts {pucNetmask pucRouter : Nat} (hpv : pvData + 2 ^ 17 ≤ 2 ^ 32) (hsiz : Delivered aucData siz)
    (hacc : Accepts s m (pvData + uUdpData) siz pucNetmask pucRouter) :
    siz = aucData.length ∧ InMemory (pvData + uUdpData) siz := by
  obtain ⟨rfl, hlt⟩ | ⟨-, hlo, hhi⟩ := hsiz
  · exact ⟨rfl, inMemory_of_delivered hpv hlt⟩
  · exact absurd hacc (not_accepts_of_wrapped (by unfold uUdpData; omega) hlo hhi)

theorem isUdpLength_of_delivered (hsiz : Delivered aucData siz) : IsUdpLength siz := by
  obtain ⟨-, hlt⟩ | ⟨-, hlo, hhi⟩ := hsiz
  · exact .inl hlt
  · exact .inr ⟨hlo, hhi⟩

/-- The handler is right about a datagram that it cannot take for another one. -/
theorem settlesRight_of_unambiguous (hpv : pvData + 2 ^ 17 ≤ 2 ^ 32) (hsiz : Delivered aucData siz)
    (hm : Holds m (pvData + uUdpData) aucData) (h : Unambiguous s aucData) :
    SettlesRight s m pvData siz aucData := by
  intro t r hr
  obtain ⟨s', rfl⟩ := recHandler_returns hr hpv (isUdpLength_of_delivered hsiz)
  refine ⟨s', rfl, ?_⟩
  obtain ⟨pucNetmask, pucRouter, hacc, hconf, hok⟩ | ⟨hno, hsame⟩ := recHandler_cases hr
  · obtain ⟨rfl, hmem⟩ := inMemory_of_accepts hpv hsiz hacc
    obtain ⟨hlooks, hmask, hmaskIp, hrouter, hrouterIp⟩ := hacc.looks hmem
    by_cases hack : ∃ aucNetmask aucRouter, IsAcknowledge s aucData aucNetmask aucRouter
    · obtain ⟨aucNetmask, aucRouter, hack⟩ := hack
      obtain ⟨-, hmask', hrouter'⟩ := h.1 _ _ hack
      rw [options_of_holds hm] at hmask hrouter
      have hmaskEq := Option.some.inj (hmask.symm.trans (find_append hmask'))
      have hrouterEq := Option.some.inj (hrouter.symm.trans (find_append hrouter'))
      rw [get32_eq_ipOf, yiAddr_of_holds hm (by have := hack.length; omega), hmaskIp, hmaskEq, hrouterIp,
        hrouterEq] at hconf
      exact .inl ⟨aucNetmask, aucRouter, hack, hconf, hok⟩
    · have hnone : ∀ aucNetmask aucRouter, ¬ IsAcknowledge s aucData aucNetmask aucRouter :=
        fun aucNetmask aucRouter hack' => hack ⟨aucNetmask, aucRouter, hack'⟩
      exact absurd (hlooks.completable hm) (h.2 hnone hlooks.request)
  · refine .inr ⟨fun aucNetmask aucRouter hack => ?_, hsame⟩
    obtain ⟨rfl, hlt⟩ | ⟨rfl, -, -⟩ := hsiz
    · obtain ⟨htype, hmask, hrouter⟩ := h.1 _ _ hack
      obtain ⟨pucNetmask, pucRouter, hacc⟩ :=
        (hack.looks hm htype hmask hrouter).accepts (inMemory_of_delivered hpv hlt)
      exact hno pucNetmask pucRouter hacc
    · exact absurd hack.length (by decide)

theorem exists_run (hpv : pvData + 2 ^ 17 ≤ 2 ^ 32) (hlt : aucData.length + 8 < 2 ^ 16) (hreq : s.tState = .request) :
    ∃ s', Runs (dhcpRecHandler s m pvData aucData.length) [] (some s') := by
  obtain ⟨s', hs'⟩ := exists_dhcpProcessReply (exists_dhcpGetOption (inMemory_of_delivered hpv hlt) m) s
  refine ⟨s', ?_⟩
  simp only [dhcpRecHandler, hreq]
  exact ⟨rfl, hs'.symm⟩

theorem changes_of_looks {s' : Client} {t : List ClientEvent} (hmem : InMemory (pvData + uUdpData) siz)
    (hlooks : Looks s m (pvData + uUdpData) siz) (hr : Runs (dhcpRecHandler s m pvData siz) t (some s')) :
    s'.tEthernet.ulIp ≠ 0 := by
  obtain ⟨_, _, _, hconf, -⟩ | ⟨hno, -⟩ := recHandler_cases hr
  · rw [hconf.ulIp]
    exact fun h => hlooks.yiAddr ((get32_eq_iff m _ (by decide)).mp h)
  · obtain ⟨pucNetmask, pucRouter, hacc⟩ := hlooks.accepts hmem
    exact absurd hacc (hno pucNetmask pucRouter)

/-- A byte that is neither of two given ones, and no code of the options. -/
theorem exists_other (x y : Option UInt8) :
    ∃ b : UInt8, b ≠ 0 ∧ b ∉ ackOptions ∧ b ≠ dhcpMsgtypAck ∧ x ≠ some b ∧ y ≠ some b := by
  by_cases h0 : x = some 240 ∨ y = some 240
  · by_cases h1 : x = some 241 ∨ y = some 241
    · refine ⟨242, by decide, by decide, by decide, ?_, ?_⟩
      · rintro rfl
        simp_all
      · rintro rfl
        simp_all
    · rw [not_or] at h1
      exact ⟨241, by decide, by decide, by decide, h1.1, h1.2⟩
  · rw [not_or] at h0
    exact ⟨240, by decide, by decide, by decide, h0.1, h0.2⟩

theorem find_of_append_replicate {uiOption b : UInt8} {bs : List UInt8} {n : Nat} (hb : b ≠ uiOption) (hzero : b ≠ 0)
    (h : Tlv.find uiOption 0 (bs ++ List.replicate n b) = some value) (hlast : value.getLast? ≠ some b) :
    Tlv.find uiOption 0 bs = some value := by
  cases hv : Tlv.find uiOption 0 bs with
  | none => exact absurd (getLast_of_find_append hv hb hzero h) hlast
  | some value' => rw [← h, find_append hv]

/-- If the handler is right whatever is behind an acknowledge, it finds the
options in it. -/
theorem find_of_settlesRight (hpv : pvData + 2 ^ 17 ≤ 2 ^ 32) (hlt : aucData.length + 8 < 2 ^ 16)
    (hzero : s.tEthernet.ulIp = 0)
    (h : ∀ m, Holds m (pvData + uUdpData) aucData → SettlesRight s m pvData aucData.length aucData)
    (hack : IsAcknowledge s aucData aucNetmask aucRouter) :
    Tlv.find dhcpOptDhcpMessageType 0 (aucData.drop 240) = some [dhcpMsgtypAck] ∧
      Tlv.find dhcpOptSubnetMask 0 (aucData.drop 240) = some aucNetmask ∧
      Tlv.find dhcpOptRouter 0 (aucData.drop 240) = some aucRouter := by
  obtain ⟨b, hb, hcodes, htype, hmaskLast, hrouterLast⟩ := exists_other aucNetmask.getLast? aucRouter.getLast?
  obtain ⟨m, hm⟩ : ∃ m, m = store (fun _ => 0) (pvData + uUdpData) (aucData ++ List.replicate 236 b) := ⟨_, rfl⟩
  obtain ⟨hdata, hbehind⟩ := holds_append.mp (hm ▸ holds_store (fun _ => 0) (pvData + uUdpData)
    (aucData ++ List.replicate 236 b))
  have hlen := hack.length
  have harea : slice m (pvData + uUdpData + 240) (aucData.length - 4) = aucData.drop 240 ++ List.replicate 236 b := by
    have hroom : aucData.length - 4 - (aucData.drop 240).length = 236 := by
      rw [List.length_drop]
      omega
    have hstart : pvData + uUdpData + 240 + (aucData.length - 240) = pvData + uUdpData + aucData.length := by omega
    rw [Holds, List.length_replicate] at hbehind
    rw [options_of_holds hdata, hroom, hstart, hbehind]
  obtain ⟨s', hr⟩ := exists_run (s := s) (m := m) hpv hlt hack.request
  obtain ⟨s'', hs'', hcases⟩ := h m hdata [] (some s') hr
  obtain rfl := Option.some.inj hs''
  obtain ⟨aucNetmask', aucRouter', hack', hconf, -⟩ | ⟨hnone, -⟩ := hcases
  · obtain rfl := Option.some.inj (hack.netmask.symm.trans hack'.netmask)
    obtain rfl := Option.some.inj (hack.router.symm.trans hack'.router)
    obtain ⟨pucNetmask, pucRouter, hacc, hconf', -⟩ | ⟨-, hsame⟩ := recHandler_cases hr
    · obtain ⟨hlooks, hmask, hmaskIp, hrouter, hrouterIp⟩ := hacc.looks (inMemory_of_delivered hpv hlt)
      obtain ⟨htypeFind, ⟨v, hv, hvlen⟩, w, hw, hwlen⟩ := meets_ackOptions.mp hlooks.options
      obtain rfl := Option.some.inj (hmask.symm.trans hv)
      obtain rfl := Option.some.inj (hrouter.symm.trans hw)
      have hmaskEq := ipOf_injective hack.length_netmask hvlen
        ((hconf.ulNetmask.symm.trans hconf'.ulNetmask).trans hmaskIp)
      have hrouterEq := ipOf_injective hack.length_router hwlen
        ((hconf.ulGatewayIp.symm.trans hconf'.ulGatewayIp).trans hrouterIp)
      rw [harea] at htypeFind hmask hrouter
      rw [← hmaskEq] at hmask
      rw [← hrouterEq] at hrouter
      have hne : ∀ c ∈ ackOptions, b ≠ c := fun c hc heq => hcodes (heq ▸ hc)
      refine ⟨?_, ?_, ?_⟩
      · have hlast : [dhcpMsgtypAck].getLast? ≠ some b := fun heq => htype (Option.some.inj heq).symm
        exact find_of_append_replicate (hne _ (by decide)) hb htypeFind hlast
      · exact find_of_append_replicate (hne _ (by decide)) hb hmask hmaskLast
      · exact find_of_append_replicate (hne _ (by decide)) hb hrouter hrouterLast
    · have hip := hconf.ulIp
      rw [hsame, hzero] at hip
      exact absurd hip.symm hack.ip_ne_zero
  · exact absurd hack (hnone _ _)

theorem length_replyPattern (s : Client) : (replyPattern s).length = 240 := by
  have hmac := s.tEthernet.length_aucMac
  simp only [replyPattern, List.length_append, List.length_map, List.length_replicate, length_toLe32, hmac]
  rfl

/-- A datagram that ends in front of the last byte of its address can get one. -/
theorem getElem_complete (s : Client) (h : aucData.length < 20) :
    (aucData ++ complete (replyPattern s) aucData.length)[19]? = some 1 := by
  have hfree : (replyPattern s)[19]? = some none := rfl
  have hsum : aucData.length + (19 - aucData.length) = 19 := by omega
  rw [List.getElem?_append_right (by omega), complete, List.getElem?_map, List.getElem?_drop, hsum, hfree]
  rfl

theorem holds_of_completed {p : Pattern}
    (hm : Holds m pkt (aucData.take 240 ++ complete p (aucData.take 240).length))
    (hrest : Holds m (pkt + 240) (aucData.drop 240)) : Holds m pkt aucData := by
  by_cases hle : 240 ≤ aucData.length
  · rw [← List.take_append_drop 240 aucData, holds_append, List.length_take_of_le hle]
    exact ⟨(holds_append.mp hm).1, hrest⟩
  · rw [List.take_of_length_le (by omega)] at hm
    exact (holds_append.mp hm).1

theorem need_ackOptions : need ackPattern ackOptions = 15 := by decide

/-- The options that are needed have 15 bytes, and the end pointer is four bytes
short of them for each byte of the payload. -/
theorem Completable.le (h : Completable s aucData) : 19 ≤ aucData.length := by
  obtain ⟨tail, htail, -, hmeets⟩ := (completable_iff length_ackPattern_lt).mp h.2
  have hneed := need_le hmeets
  rw [List.drop_zero, List.length_append, htail, List.length_drop, need_ackOptions] at hneed
  omega

/-- A memory in which a datagram that can be completed looks like an
acknowledge. -/
theorem exists_looks (hreq : s.tState = .request) (h : Completable s aucData) (pkt : Nat) :
    ∃ m, Holds m pkt aucData ∧ Looks s m pkt aucData.length := by
  have hle := h.le
  obtain ⟨hreply, hcomp⟩ := h
  obtain ⟨tail, htail, -, hmeets⟩ := (completable_iff length_ackPattern_lt).mp hcomp
  rw [List.drop_zero] at hmeets
  have hsiz : (aucData.drop 240 ++ tail).length = aucData.length - 4 := by
    rw [List.length_append, htail, List.length_drop]
    omega
  obtain ⟨fixed, hfixed⟩ : ∃ fixed, fixed = aucData.take 240 ++ complete (replyPattern s) (aucData.take 240).length :=
    ⟨_, rfl⟩
  have hlen : fixed.length = 240 := by
    rw [hfixed, length_complete (length_le_of_fits hreply.fits), length_replyPattern]
  obtain ⟨m, hstore⟩ : ∃ m, Holds m pkt (fixed ++ (aucData.drop 240 ++ tail)) := ⟨_, holds_store (fun _ => 0) pkt _⟩
  obtain ⟨hhead, hoptions⟩ := holds_append.mp hstore
  rw [hlen] at hoptions
  have hm : Holds m pkt aucData :=
    holds_of_completed (hfixed ▸ hhead) (holds_append.mp hoptions).1
  rw [Holds, hlen] at hhead
  rw [Holds, hsiz] at hoptions
  refine ⟨m, hm, hreq, by omega, hreply.ulXId_lt, ?_, ?_, ?_⟩
  · rw [hhead, hfixed]
    exact fits_complete hreply.fits
  · by_cases hle : 20 ≤ aucData.length
    · rw [yiAddr_of_holds hm hle]
      exact hreply.yiAddr hle
    · intro hzero
      have hlast : m (pkt + 19) = 0 := by
        have h3 := getElem?_slice m (pkt + ulYiAddr) 4 3 (by decide)
        rw [hzero] at h3
        exact (Option.some.inj h3).symm
      have hone := getElem?_slice m pkt 240 19 (by decide)
      rw [hhead, hfixed, List.take_of_length_le (by omega), getElem_complete s (by omega), hlast] at hone
      exact absurd hone (by decide)
  · rw [hoptions]
    exact hmeets

theorem unambiguous_of_settlesRight (hpv : pvData + 2 ^ 17 ≤ 2 ^ 32) (hlt : aucData.length + 8 < 2 ^ 16)
    (hzero : s.tEthernet.ulIp = 0)
    (h : ∀ m, Holds m (pvData + uUdpData) aucData → SettlesRight s m pvData aucData.length aucData) :
    Unambiguous s aucData := by
  refine ⟨fun aucNetmask aucRouter hack => find_of_settlesRight hpv hlt hzero h hack, ?_⟩
  intro hnone hreq hcomp
  obtain ⟨m, hm, hlooks⟩ := exists_looks hreq hcomp (pvData + uUdpData)
  obtain ⟨s', hr⟩ := exists_run (s := s) (m := m) hpv hlt hreq
  obtain ⟨s'', hs'', hcases⟩ := h m hm [] (some s') hr
  obtain rfl := Option.some.inj hs''
  obtain ⟨aucNetmask, aucRouter, hack, -⟩ | ⟨-, hsame⟩ := hcases
  · exact hnone aucNetmask aucRouter hack
  · have hchanged := changes_of_looks (inMemory_of_delivered hpv hlt) hlooks hr
    rw [hsame] at hchanged
    exact hchanged hzero

variable {o : Ethernet}

theorem replies_congr (ho : o.aucMac = s.tEthernet.aucMac) :
    Replies { s with tEthernet := o } aucData ↔ Replies s aucData := by
  have hpat : replyPattern { s with tEthernet := o } = replyPattern s := by simp only [replyPattern, ho]
  constructor
  · rintro ⟨hxid, hfits, hyiaddr⟩
    exact ⟨hxid, hpat ▸ hfits, hyiaddr⟩
  · rintro ⟨hxid, hfits, hyiaddr⟩
    exact ⟨hxid, hpat.symm ▸ hfits, hyiaddr⟩

theorem isAcknowledge_congr (ho : o.aucMac = s.tEthernet.aucMac) :
    IsAcknowledge { s with tEthernet := o } aucData aucNetmask aucRouter ↔
      IsAcknowledge s aucData aucNetmask aucRouter := by
  constructor
  · rintro ⟨hreq, hlen, hreply, htype, hmask, hmaskLen, hrouter, hrouterLen⟩
    exact ⟨hreq, hlen, (replies_congr ho).mp hreply, htype, hmask, hmaskLen, hrouter, hrouterLen⟩
  · rintro ⟨hreq, hlen, hreply, htype, hmask, hmaskLen, hrouter, hrouterLen⟩
    exact ⟨hreq, hlen, (replies_congr ho).mpr hreply, htype, hmask, hmaskLen, hrouter, hrouterLen⟩

/-- Of the settings only the MAC counts. -/
theorem unambiguous_congr (ho : o.aucMac = s.tEthernet.aucMac) :
    Unambiguous { s with tEthernet := o } aucData ↔ Unambiguous s aucData := by
  simp only [Unambiguous, Completable, isAcknowledge_congr ho, replies_congr ho]

/-- The handler is right about a datagram, whatever is in the memory behind it
and whatever the settings were, exactly if the datagram is unambiguous. -/
theorem settlesRight_iff (hpv : pvData + 2 ^ 17 ≤ 2 ^ 32) (hsiz : Delivered aucData siz) (s : Client) :
    (∀ m o, Holds m (pvData + uUdpData) aucData → o.aucMac = s.tEthernet.aucMac →
        SettlesRight { s with tEthernet := o } m pvData siz aucData) ↔ Unambiguous s aucData := by
  constructor
  · intro h
    obtain ⟨rfl, hlt⟩ | ⟨rfl, -, -⟩ := hsiz
    · rw [← unambiguous_congr (o := { s.tEthernet with ulIp := 0 }) rfl]
      exact unambiguous_of_settlesRight hpv hlt rfl (fun m hm => h m _ hm rfl)
    · refine ⟨fun _ _ hack => absurd hack.length (by decide), fun _ _ hcomp => ?_⟩
      exact absurd hcomp.le (by decide)
  · intro h m o hm ho
    exact settlesRight_of_unambiguous hpv hsiz hm ((unambiguous_congr ho).mpr h)

def Item.valueOf (uiOption : UInt8) : Item → Option (List UInt8)
  | .pad => none
  | .option o => if o.code = uiOption then some o.value else none

variable {items : List Item} {fill : List UInt8} {uiOption : UInt8}

theorem optionOf_pad (uiOption : UInt8) (bs : List UInt8) :
    optionOf uiOption 0 (dhcpOptPad :: bs) = optionOf uiOption 0 bs := by
  cases bs with
  | nil => rfl
  | cons l bs => rw [optionOf, if_pos rfl]

theorem optionOf_end (uiOption : UInt8) (bs : List UInt8) : optionOf uiOption 0 (dhcpOptEnd :: bs) = none := by
  cases bs with
  | nil => rfl
  | cons l bs => rw [optionOf, if_neg (by decide), if_pos (.inl rfl)]

theorem optionOf_eq_drop (uiOption : UInt8) (k : Nat) (bs : List UInt8) :
    optionOf uiOption k bs = optionOf uiOption 0 (bs.drop k) := by
  induction k generalizing bs with
  | zero => rfl
  | succ k ih =>
    cases bs with
    | nil => rfl
    | cons b bs => exact ih bs

theorem toNat_length_value (o : DhcpOption) : (UInt8.ofNat o.value.length).toNat = o.value.length := by
  rw [UInt8.toNat_ofNat', Nat.mod_eq_of_lt o.length_value]

/-- On well-formed options the reading by RFC 2132 gives the first option of
the sequence. -/
theorem optionOf_items (uiOption : UInt8) (items : List Item) (fill : List UInt8) :
    optionOf uiOption 0 (encodeItems items ++ dhcpOptEnd :: fill) = items.findSome? (Item.valueOf uiOption) := by
  induction items with
  | nil =>
    rw [encodeItems, List.flatMap_nil, List.nil_append, optionOf_end]
    rfl
  | cons i items ih =>
    rw [encodeItems_cons, List.append_assoc, List.findSome?_cons]
    cases i with
    | pad =>
      rw [Item.encode, List.singleton_append, optionOf_pad, ih]
      rfl
    | option o =>
      have hlen : ¬ (o.code = dhcpOptEnd ∨
          (o.value ++ (encodeItems items ++ dhcpOptEnd :: fill)).length < o.value.length) := by
        rw [not_or, List.length_append]
        exact ⟨o.code_ne_end, by omega⟩
      rw [Item.encode, List.cons_append, List.cons_append, optionOf, if_neg o.code_ne_pad, toNat_length_value,
        if_neg hlen, optionOf_eq_drop, List.take_left, List.drop_left, ih, Item.valueOf]
      split_ifs <;> rfl

/-- So does the search of the handler, if no pad is in front of the option. -/
theorem find_items (h : unpadded uiOption items = true) (rest : List UInt8) :
    Tlv.find uiOption 0 (encodeItems items ++ rest) = items.findSome? (Item.valueOf uiOption) := by
  induction items with
  | nil => cases h
  | cons i items ih =>
    cases i with
    | pad => cases h
    | option o =>
      rw [encodeItems_cons, List.append_assoc, List.findSome?_cons, Item.encode, List.cons_append, List.cons_append,
        find_item, toNat_length_value, Item.valueOf]
      by_cases ho : o.code = uiOption
      · rw [if_pos ⟨ho, by rw [List.length_append]; omega⟩, if_pos ho, List.take_left]
      · rw [if_neg (fun hc => ho hc.1), if_neg ho, List.drop_left]
        exact ih (by simpa [unpadded, ho] using h)

/-- A datagram is unambiguous if its options are well formed and have the three
options that are needed, with no pad in front of any of them. -/
theorem unambiguous_of_unpadded (hlen : 240 ≤ aucData.length)
    (hoptions : aucData.drop 240 = encodeItems items ++ dhcpOptEnd :: fill)
    (h : ∀ c ∈ ackOptions, unpadded c items = true) : Unambiguous s aucData := by
  have hsame : ∀ c ∈ ackOptions, Tlv.find c 0 (aucData.drop 240) = optionOf c 0 (aucData.drop 240) := by
    intro c hc
    rw [hoptions, optionOf_items, find_items (h c hc)]
  constructor
  · intro aucNetmask aucRouter hack
    exact ⟨(hsame _ (by decide)).trans hack.messageType, (hsame _ (by decide)).trans hack.netmask,
      (hsame _ (by decide)).trans hack.router⟩
  · rintro hnone hreq ⟨hreply, hcomp⟩
    obtain ⟨tail, -, -, hmeets⟩ := (completable_iff length_ackPattern_lt).mp hcomp
    rw [List.drop_zero, meets_ackOptions] at hmeets
    have hfound : ∀ c ∈ ackOptions, Tlv.find c 0 (aucData.drop 240 ++ tail) = optionOf c 0 (aucData.drop 240) := by
      intro c hc
      rw [← hsame c hc, hoptions, List.append_assoc, find_items (h c hc), find_items (h c hc)]
    rw [hfound _ (by decide), hfound _ (by decide), hfound _ (by decide)] at hmeets
    obtain ⟨htype, ⟨aucNetmask, hmask, hmaskLen⟩, aucRouter, hrouter, hrouterLen⟩ := hmeets
    exact hnone aucNetmask aucRouter ⟨hreq, hlen, hreply, htype, hmask, hmaskLen, hrouter, hrouterLen⟩

def exampleRequest : Client := { exampleStatics with tState := .request, ulXId := 3 }

def exampleAcknowledge : List UInt8 :=
  [2, 1, 6, 0, 3, 0, 0, 0] ++ List.replicate 8 0 ++ [192, 168, 0, 10] ++ List.replicate 8 0 ++
    [2, 0, 0, 0, 0, 10] ++ List.replicate 202 0 ++ aucDhcpMagic ++
    [53, 1, 5, 1, 4, 255, 255, 255, 0, 3, 4, 192, 168, 0, 1, 255]

def exampleRouter : DhcpOption := ⟨3, [192, 168, 0, 1], by decide, by decide, by decide⟩

def exampleBuffer : Memory := store (fun _ => 0) uUdpData exampleAcknowledge

theorem unambiguous_exampleAcknowledge : Unambiguous exampleRequest exampleAcknowledge := by
  have hoptions : exampleAcknowledge.drop 240 = encodeItems
      [.option exampleMessageType, .option exampleNetmask, .option exampleRouter] ++ dhcpOptEnd :: [] := by
    decide +kernel
  refine unambiguous_of_unpadded (by decide +kernel) hoptions ?_
  simp only [ackOptions, Finset.forall_mem_insert, Finset.mem_singleton, forall_eq]
  decide

theorem settlesRight_iff_exampleAcknowledge :
    SettlesRight exampleRequest exampleBuffer 0 256 exampleAcknowledge :=
  (settlesRight_iff (by decide) (.inl (by decide +kernel)) exampleRequest).mpr unambiguous_exampleAcknowledge
    exampleBuffer exampleEthernet (holds_store _ _ _) rfl

/-- A datagram of 19 bytes is completed by the packet that was in the buffer
before. -/
theorem short_datagram_accepted :
    ¬ ∀ (s : Client) (m : Memory) (pvData siz : Nat) (aucData : List UInt8), pvData + 2 ^ 17 ≤ 2 ^ 32 →
      Delivered aucData siz → Holds m (pvData + uUdpData) aucData → SettlesRight s m pvData siz aucData := by
  intro hall
  have hm : Holds exampleBuffer (0 + uUdpData) (exampleAcknowledge.take 19) := by
    unfold Holds
    decide +kernel
  have hmem : InMemory (0 + uUdpData) 19 := by
    unfold InMemory
    decide
  have hlooks : Looks exampleRequest exampleBuffer (0 + uUdpData) 19 :=
    ⟨rfl, by decide, by decide, by decide +kernel, by decide +kernel,
      meets_ackOptions.mpr ⟨by decide +kernel, ⟨[255, 255, 255, 0], by decide +kernel, rfl⟩,
        [192, 168, 0, 1], by decide +kernel, rfl⟩⟩
  have hlen : (exampleAcknowledge.take 19).length + 8 < 2 ^ 16 := by decide +kernel
  obtain ⟨s', hr⟩ := exists_run (s := exampleRequest) (m := exampleBuffer)
    (show 0 + 2 ^ 17 ≤ 2 ^ 32 by decide) hlen rfl
  obtain ⟨s'', hs'', hcases⟩ := hall _ _ 0 19 _ (by decide) (.inl (by decide +kernel)) hm [] (some s') hr
  obtain rfl := Option.some.inj hs''
  obtain ⟨aucNetmask, aucRouter, hack, -⟩ | ⟨-, hsame⟩ := hcases
  · exact absurd hack.length (by decide +kernel)
  · have hchanged := changes_of_looks hmem hlooks hr
    rw [hsame] at hchanged
    exact hchanged rfl

end FlashApp.Dhcp
