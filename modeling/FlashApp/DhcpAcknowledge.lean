import FlashApp.DhcpSettings
import FlashApp.DhcpFormat
import FlashApp.Tlv

namespace FlashApp.Dhcp

open Bytes Eth Interaction UdpClient Tlv

/-- The value of the first option with a code, by RFC 2132: a pad has no length
and the end has nothing behind it. The second argument is what is left to skip
of the option before. -/
def optionOf (uiOption : UInt8) : Nat → List UInt8 → Option (List UInt8)
  | _, [] => none
  | k + 1, _ :: bs => optionOf uiOption k bs
  | 0, [_] => none
  | 0, c :: l :: bs =>
    if c = dhcpOptPad then optionOf uiOption 0 (l :: bs)
    else if c = dhcpOptEnd ∨ bs.length < l.toNat then none
    else if c = uiOption then some (bs.take l.toNat)
    else optionOf uiOption l.toNat bs

/-- The fixed part and the cookie of an answer to the client. -/
def replyPattern (s : Client) : Pattern :=
  [dhcpOpBootreply, 1, 6].map some ++ (List.replicate 1 none ++ ((toLe32 s.ulXId).map some ++
    (List.replicate 20 none ++ (s.tEthernet.aucMac.map some ++ (List.replicate 202 none ++ aucDhcpMagic.map some)))))

/-- No byte of the fixed part and of the cookie that is in the datagram is
wrong. -/
structure Replies (s : Client) (aucData : List UInt8) : Prop where
  ulXId_lt : s.ulXId < 2 ^ 32
  fits : fits (replyPattern s) (aucData.take 240) = true
  yiAddr : 20 ≤ aucData.length → (aucData.drop ulYiAddr).take 4 ≠ toLe32 0

/-- The datagram is an acknowledge for the client, with these values of the
options for the netmask and the router. -/
structure IsAcknowledge (s : Client) (aucData aucNetmask aucRouter : List UInt8) : Prop where
  request : s.tState = .request
  length : 240 ≤ aucData.length
  replies : Replies s aucData
  messageType : optionOf dhcpOptDhcpMessageType 0 (aucData.drop 240) = some [dhcpMsgtypAck]
  netmask : optionOf dhcpOptSubnetMask 0 (aucData.drop 240) = some aucNetmask
  length_netmask : aucNetmask.length = 4
  router : optionOf dhcpOptRouter 0 (aucData.drop 240) = some aucRouter
  length_router : aucRouter.length = 4

def ipOf (value : List UInt8) : Nat :=
  ipAdr (value.getD 0 0).toNat (value.getD 1 0).toNat (value.getD 2 0).toNat (value.getD 3 0).toNat

/-- A datagram changes the settings as a whole if it is an acknowledge for the
client, which is then done, and not at all if it is none. -/
def SettlesRight (s : Client) (m : Memory) (pvData siz : Nat) (aucData : List UInt8) : Prop :=
  ∀ t r, Runs (dhcpRecHandler s m pvData siz) t r → ∃ s', r = some s' ∧
    ((∃ aucNetmask aucRouter, IsAcknowledge s aucData aucNetmask aucRouter ∧
        Configured (ipOf ((aucData.drop ulYiAddr).take 4)) (ipOf aucNetmask) (ipOf aucRouter)
          s.tEthernet s'.tEthernet ∧ s'.tState = .ok) ∨
      (∀ aucNetmask aucRouter, ¬ IsAcknowledge s aucData aucNetmask aucRouter) ∧ s'.tEthernet = s.tEthernet)

/-- The options that the handler needs. -/
def ackOptions : Finset UInt8 := {dhcpOptDhcpMessageType, dhcpOptSubnetMask, dhcpOptRouter}

def ackPattern (uiOption : UInt8) : Pattern :=
  if uiOption = dhcpOptDhcpMessageType then [some dhcpMsgtypAck] else List.replicate 4 none

/-- With what may be behind the payload, up to the end pointer of
`dhcp_getOption`, the datagram can get the look of an acknowledge, when every
item is taken for an option with a length. -/
def Completable (s : Client) (aucData : List UInt8) : Prop :=
  Replies s aucData ∧
    completable ackPattern (aucData.length - 4 - (aucData.drop 240).length) ackOptions 0 (aucData.drop 240) = true

/-- An acknowledge has its options where the handler looks for them, and no
other datagram can be completed to one. -/
def Unambiguous (s : Client) (aucData : List UInt8) : Prop :=
  (∀ aucNetmask aucRouter, IsAcknowledge s aucData aucNetmask aucRouter →
    Tlv.find dhcpOptDhcpMessageType 0 (aucData.drop 240) = some [dhcpMsgtypAck] ∧
      Tlv.find dhcpOptSubnetMask 0 (aucData.drop 240) = some aucNetmask ∧
      Tlv.find dhcpOptRouter 0 (aucData.drop 240) = some aucRouter) ∧
    ((∀ aucNetmask aucRouter, ¬ IsAcknowledge s aucData aucNetmask aucRouter) → s.tState = .request →
      ¬ Completable s aucData)

/-- The length that comes with a datagram. A UDP length below the size of its
header wraps around. -/
def Delivered (aucData : List UInt8) (siz : Nat) : Prop :=
  siz = aucData.length ∧ siz + 8 < 2 ^ 16 ∨ aucData = [] ∧ 2 ^ 32 ≤ siz + 8 ∧ siz < 2 ^ 32

variable {s : Client} {m : Memory} {pkt siz n p : Nat} {uiOption : UInt8} {value aucData : List UInt8}

def valueAt (m : Memory) (p : Nat) : List UInt8 := slice m (p + 2) (m (p + 1)).toNat

theorem slice_drop (m : Memory) (a n k : Nat) : (slice m a n).drop k = slice m (a + k) (n - k) := by
  by_cases hk : k ≤ n
  · obtain ⟨j, rfl⟩ := Nat.exists_eq_add_of_le hk
    rw [slice_add, List.drop_left' (length_slice m a k), Nat.add_sub_cancel_left]
  · rw [List.drop_eq_nil_of_le (by rw [length_slice]; omega), Nat.sub_eq_zero_of_le (by omega)]
    rfl

theorem slice_take (m : Memory) (a : Nat) {n k : Nat} (hk : k ≤ n) : (slice m a n).take k = slice m a k := by
  obtain ⟨j, rfl⟩ := Nat.exists_eq_add_of_le hk
  rw [slice_add, List.take_left' (length_slice m a k)]

/-- The loop of `dhcp_getOption` is the search on the bytes up to its end
pointer. -/
theorem scan_eq_find {pucEnd : Nat} {r : Option Nat}
    (hr : Scan.scan (isLive pucEnd) (isHit m uiOption pucEnd) (itemEnd m) n p = some r) :
    r.map (valueAt m) = Tlv.find uiOption 0 (slice m p (pucEnd - p)) ∧ ∀ q, r = some q → itemEnd m q ≤ pucEnd := by
  induction n generalizing p with
  | zero => cases hr
  | succ n ih =>
    rw [Scan.scan] at hr
    by_cases hlive : p + 2 ≤ pucEnd
    · have hbytes : slice m p (pucEnd - p) = m p :: m (p + 1) :: slice m (p + 2) (pucEnd - (p + 2)) := by
        have hlen : pucEnd - p = pucEnd - (p + 2) + 1 + 1 := by omega
        rw [hlen]
        rfl
      have hdrop : (slice m (p + 2) (pucEnd - (p + 2))).drop (m (p + 1)).toNat =
          slice m (itemEnd m p) (pucEnd - itemEnd m p) := by
        rw [slice_drop, Nat.sub_sub]
        rfl
      have hfit : (m (p + 1)).toNat ≤ pucEnd - (p + 2) ↔ itemEnd m p ≤ pucEnd := by
        unfold itemEnd
        omega
      rw [hbytes, find_item, length_slice, hdrop]
      rw [if_pos (show isLive pucEnd p = true from decide_eq_true hlive)] at hr
      by_cases hhit : m p = uiOption ∧ itemEnd m p ≤ pucEnd
      · rw [if_pos (show isHit m uiOption pucEnd p = true from decide_eq_true hhit)] at hr
        obtain rfl := Option.some.inj hr
        rw [if_pos ⟨hhit.1, hfit.mpr hhit.2⟩, slice_take _ _ (hfit.mpr hhit.2)]
        refine ⟨rfl, ?_⟩
        rintro q ⟨⟩
        exact hhit.2
      · rw [if_neg (show ¬ isHit m uiOption pucEnd p = true by simpa [isHit] using hhit)] at hr
        rw [if_neg (fun h => hhit ⟨h.1, hfit.mp h.2⟩)]
        exact ih hr
    · rw [if_neg (by simpa [isLive] using hlive)] at hr
      obtain rfl := Option.some.inj hr
      refine ⟨?_, by simp⟩
      rw [find_of_short (by rw [length_slice]; omega)]
      rfl

/-- What `dhcp_getOption` finds, by the bytes up to its end pointer. -/
theorem dhcpGetOption_eq_find (h : InMemory pkt siz) (hsiz : 4 ≤ siz) (hcookie : slice m (pkt + 236) 4 = aucDhcpMagic)
    (uiOption : UInt8) :
    ∃ r, dhcpGetOption m pkt siz uiOption = some r ∧
      r.map (valueAt m) = Tlv.find uiOption 0 (slice m (pkt + 240) (siz - 4)) ∧
      ∀ p, r = some p → itemEnd m p ≤ pkt + 236 + siz := by
  obtain ⟨r, hr⟩ := exists_dhcpGetOption h m uiOption
  have hscan := hr
  rw [dhcpGetOption_eq h, if_pos ⟨hsiz, hcookie⟩] at hscan
  have hlen : pkt + 236 + siz - (pkt + 240) = siz - 4 := by omega
  obtain ⟨hfind, hend⟩ := scan_eq_find hscan
  rw [hlen] at hfind
  exact ⟨r, hr, hfind, hend⟩

theorem dhcpGetOption_of_short (h : InMemory pkt siz)
    (hno : ¬ (4 ≤ siz ∧ slice m (pkt + 236) 4 = aucDhcpMagic)) (uiOption : UInt8) :
    dhcpGetOption m pkt siz uiOption = some none := by
  rw [dhcpGetOption_eq h, if_neg hno]

theorem get32_eq_iff (m : Memory) (a : Nat) (hn : n < 2 ^ 32) : get32 m a = n ↔ slice m a 4 = toLe32 n := by
  have hslice : slice m a 4 = toLe32 (get32 m a) := (toLe32_le32 _ _ _ _).symm
  rw [hslice]
  constructor
  · exact congrArg toLe32
  · intro h
    have hle : le32 (m a) (m (a + 1)) (m (a + 2)) (m (a + 3)) < 2 ^ 32 := le32_lt _ _ _ _
    rw [← le32_toLe32 hn, ← le32_toLe32 (n := get32 m a) hle]
    injection h with h0 h
    injection h with h1 h
    injection h with h2 h
    injection h with h3
    rw [h0, h1, h2, h3]

theorem isBootreply_iff (s : Client) (m : Memory) (pkt : Nat) :
    isBootreply s m pkt = true ∧ slice m (pkt + 236) 4 = aucDhcpMagic ↔
      s.ulXId < 2 ^ 32 ∧ fits (replyPattern s) (slice m pkt 240) = true ∧ slice m (pkt + ulYiAddr) 4 ≠ toLe32 0 := by
  have hbytes : slice m pkt 240 = slice m pkt 3 ++ (slice m (pkt + 3) 1 ++ (slice m (pkt + 4) 4 ++
      (slice m (pkt + 8) 20 ++ (slice m (pkt + 28) 6 ++ (slice m (pkt + 34) 202 ++ slice m (pkt + 236) 4))))) := by
    rw [← slice_add, ← slice_add, ← slice_add, ← slice_add, ← slice_add, ← slice_add]
  have hmac := s.tEthernet.length_aucMac
  have hrep : ∀ a n, (slice m a n).length = (List.replicate n (none : Option UInt8)).length := by
    intro a n
    rw [length_slice, List.length_replicate]
  rw [hbytes, replyPattern, fits_append (by rfl), fits_append (hrep _ 1), fits_append (by rfl),
    fits_append (hrep _ 20), fits_append (by rw [length_slice, List.length_map, hmac]), fits_append (hrep _ 202)]
  simp only [Bool.and_eq_true]
  rw [fits_map_some (by rfl), fits_map_some (by rfl), fits_map_some (by rw [length_slice, hmac]),
    fits_map_some (by rfl), fits_replicate_none (length_slice m _ 1).le, fits_replicate_none (length_slice m _ 20).le,
    fits_replicate_none (length_slice m _ 202).le]
  have hkind : slice m pkt 3 = [dhcpOpBootreply, 1, 6] ↔
      m (pkt + ucOp) = dhcpOpBootreply ∧ m (pkt + ucHType) = 1 ∧ m (pkt + ucHLen) = 6 := by
    simp only [slice, List.cons.injEq, and_true, ucOp, ucHType, ucHLen, Nat.add_zero, Nat.add_assoc, Nat.reduceAdd]
  have hxid : get32 m (pkt + ulXIdOffset) = s.ulXId ↔ s.ulXId < 2 ^ 32 ∧ slice m (pkt + 4) 4 = toLe32 s.ulXId := by
    constructor
    · intro h
      have hlt : s.ulXId < 2 ^ 32 := h ▸ le32_lt _ _ _ _
      exact ⟨hlt, (get32_eq_iff m _ hlt).mp h⟩
    · rintro ⟨hlt, h⟩
      exact (get32_eq_iff m _ hlt).mpr h
  have hyiaddr : get32 m (pkt + ulYiAddr) = 0 ↔ slice m (pkt + ulYiAddr) 4 = toLe32 0 :=
    get32_eq_iff m _ (by decide)
  simp only [isBootreply, decide_eq_true_eq, hxid, hkind, ne_eq, hyiaddr, aucChAddr]
  tauto

/-- What the handler takes for an acknowledge, by the bytes up to the end
pointer of `dhcp_getOption`. -/
structure Looks (s : Client) (m : Memory) (pkt siz : Nat) : Prop where
  request : s.tState = .request
  size : 4 ≤ siz
  ulXId_lt : s.ulXId < 2 ^ 32
  fits : fits (replyPattern s) (slice m pkt 240) = true
  yiAddr : slice m (pkt + ulYiAddr) 4 ≠ toLe32 0
  options : Meets ackPattern ackOptions (slice m (pkt + 240) (siz - 4))

theorem optByte_eq (hp : p + 6 ≤ 2 ^ 32) {i : Nat} (hi : i < 6) : optByte m p i = m (p + i) := by
  rw [optByte, add32_of_lt (by omega)]

theorem length_valueAt (m : Memory) (p : Nat) : (valueAt m p).length = (m (p + 1)).toNat := length_slice _ _ _

theorem optIp_eq (hp : p + 6 ≤ 2 ^ 32) (hlen : (valueAt m p).length = 4) : optIp m p = ipOf (valueAt m p) := by
  rw [length_valueAt] at hlen
  rw [optIp, valueAt, hlen, optByte_eq hp (by decide), optByte_eq hp (by decide), optByte_eq hp (by decide),
    optByte_eq hp (by decide)]
  rfl

theorem find_of_option (h : InMemory pkt siz) (hsiz : 4 ≤ siz) (hcookie : slice m (pkt + 236) 4 = aucDhcpMagic)
    (hp : dhcpGetOption m pkt siz uiOption = some (some p)) :
    Tlv.find uiOption 0 (slice m (pkt + 240) (siz - 4)) = some (valueAt m p) ∧ p + 6 ≤ 2 ^ 32 := by
  obtain ⟨r, hr, hfind, hend⟩ := dhcpGetOption_eq_find h hsiz hcookie uiOption
  obtain rfl := Option.some.inj (hp.symm.trans hr)
  have hmem : pkt + siz + 493 < 2 ^ 32 := h
  have hle := hend p rfl
  unfold itemEnd at hle
  exact ⟨hfind.symm, by omega⟩

theorem option_of_find (h : InMemory pkt siz) (hsiz : 4 ≤ siz) (hcookie : slice m (pkt + 236) 4 = aucDhcpMagic)
    (hv : Tlv.find uiOption 0 (slice m (pkt + 240) (siz - 4)) = some value) :
    ∃ p, dhcpGetOption m pkt siz uiOption = some (some p) ∧ valueAt m p = value ∧ p + 6 ≤ 2 ^ 32 := by
  obtain ⟨r, hr, hfind, hend⟩ := dhcpGetOption_eq_find h hsiz hcookie uiOption
  rw [hv] at hfind
  obtain ⟨p, rfl, hp⟩ := Option.map_eq_some_iff.mp hfind
  have hmem : pkt + siz + 493 < 2 ^ 32 := h
  have hle := hend p rfl
  unfold itemEnd at hle
  exact ⟨p, hr, hp, by omega⟩

theorem length_eq_of_optByte {k : UInt8} (hp : p + 6 ≤ 2 ^ 32) :
    optByte m p 1 = k ↔ (valueAt m p).length = k.toNat := by
  rw [optByte_eq hp (by decide), length_valueAt, UInt8.toNat_inj]

theorem length_ackPattern_lt (uiOption : UInt8) : (ackPattern uiOption).length < 2 ^ 8 := by
  rw [ackPattern]
  split_ifs <;> decide

theorem meets_ackOptions {bs : List UInt8} : Meets ackPattern ackOptions bs ↔
    Tlv.find dhcpOptDhcpMessageType 0 bs = some [dhcpMsgtypAck] ∧
      (∃ aucNetmask, Tlv.find dhcpOptSubnetMask 0 bs = some aucNetmask ∧ aucNetmask.length = 4) ∧
      ∃ aucRouter, Tlv.find dhcpOptRouter 0 bs = some aucRouter ∧ aucRouter.length = 4 := by
  have hfour : ∀ value : List UInt8, value.length = (List.replicate 4 (none : Option UInt8)).length ∧
      fits (List.replicate 4 none) value = true ↔ value.length = 4 := by
    intro value
    rw [List.length_replicate]
    exact ⟨fun h => h.1, fun h => ⟨h, fits_replicate_none h.le⟩⟩
  have hone : ∀ value : List UInt8, value.length = [some dhcpMsgtypAck].length ∧
      fits [some dhcpMsgtypAck] value = true ↔ value = [dhcpMsgtypAck] := by
    intro value
    constructor
    · rintro ⟨hlen, hfits⟩
      exact (fits_map_some hlen).mp hfits
    · rintro rfl
      exact ⟨rfl, rfl⟩
  have hmask : ackPattern dhcpOptSubnetMask = List.replicate 4 none := rfl
  have hrouter : ackPattern dhcpOptRouter = List.replicate 4 none := rfl
  have htype : ackPattern dhcpOptDhcpMessageType = [some dhcpMsgtypAck] := rfl
  simp only [Meets, ackOptions, Finset.forall_mem_insert, Finset.mem_singleton, forall_eq, hmask, hrouter, htype,
    hfour, hone, exists_eq_right]

theorem cookie_of_option (h : InMemory pkt siz) (hp : dhcpGetOption m pkt siz uiOption = some (some p)) :
    4 ≤ siz ∧ slice m (pkt + 236) 4 = aucDhcpMagic := by
  by_contra hno
  rw [dhcpGetOption_of_short h hno] at hp
  cases hp

theorem ipOption_of_find (h : InMemory pkt siz) (hsiz : 4 ≤ siz) (hcookie : slice m (pkt + 236) 4 = aucDhcpMagic)
    (hp : IsIpOption m pkt siz uiOption p) :
    Tlv.find uiOption 0 (slice m (pkt + 240) (siz - 4)) = some (valueAt m p) ∧ (valueAt m p).length = 4 ∧
      optIp m p = ipOf (valueAt m p) := by
  obtain ⟨hfind, hle⟩ := find_of_option h hsiz hcookie hp.1
  have hlen : (valueAt m p).length = 4 := (length_eq_of_optByte hle).mp hp.2
  exact ⟨hfind, hlen, optIp_eq hle hlen⟩

theorem Accepts.looks {pucNetmask pucRouter : Nat} (h : InMemory pkt siz)
    (hacc : Accepts s m pkt siz pucNetmask pucRouter) : Looks s m pkt siz ∧
      Tlv.find dhcpOptSubnetMask 0 (slice m (pkt + 240) (siz - 4)) = some (valueAt m pucNetmask) ∧
      optIp m pucNetmask = ipOf (valueAt m pucNetmask) ∧
      Tlv.find dhcpOptRouter 0 (slice m (pkt + 240) (siz - 4)) = some (valueAt m pucRouter) ∧
      optIp m pucRouter = ipOf (valueAt m pucRouter) := by
  obtain ⟨hreq, hboot, ⟨pucOpt, hopt, hone, htype⟩, hmask, hrouter⟩ := hacc
  obtain ⟨hsiz, hcookie⟩ := cookie_of_option h hopt
  obtain ⟨hxid, hfits, hyiaddr⟩ := (isBootreply_iff s m pkt).mp ⟨hboot, hcookie⟩
  obtain ⟨hfind, hle⟩ := find_of_option h hsiz hcookie hopt
  obtain ⟨hmaskFind, hmaskLen, hmaskIp⟩ := ipOption_of_find h hsiz hcookie hmask
  obtain ⟨hrouterFind, hrouterLen, hrouterIp⟩ := ipOption_of_find h hsiz hcookie hrouter
  have hlen : (m (pucOpt + 1)).toNat = 1 := by
    rw [← length_valueAt]
    exact (length_eq_of_optByte hle).mp hone
  have hvalue : valueAt m pucOpt = [dhcpMsgtypAck] := by
    rw [optByte_eq hle (by decide)] at htype
    rw [valueAt, hlen, ← htype]
    rfl
  rw [hvalue] at hfind
  exact ⟨⟨hreq, hsiz, hxid, hfits, hyiaddr, meets_ackOptions.mpr ⟨hfind, ⟨_, hmaskFind, hmaskLen⟩, _, hrouterFind,
    hrouterLen⟩⟩, hmaskFind, hmaskIp, hrouterFind, hrouterIp⟩

theorem Looks.accepts (h : InMemory pkt siz) (hl : Looks s m pkt siz) :
    ∃ pucNetmask pucRouter, Accepts s m pkt siz pucNetmask pucRouter := by
  obtain ⟨hreq, hsiz, hxid, hfits, hyiaddr, hoptions⟩ := hl
  obtain ⟨hboot, hcookie⟩ := (isBootreply_iff s m pkt).mpr ⟨hxid, hfits, hyiaddr⟩
  obtain ⟨htype, ⟨aucNetmask, hmask, hmaskLen⟩, aucRouter, hrouter, hrouterLen⟩ := meets_ackOptions.mp hoptions
  obtain ⟨pucOpt, hopt, hvalue, hle⟩ := option_of_find h hsiz hcookie htype
  obtain ⟨pucNetmask, hmaskOpt, rfl, hmaskLe⟩ := option_of_find h hsiz hcookie hmask
  obtain ⟨pucRouter, hrouterOpt, rfl, hrouterLe⟩ := option_of_find h hsiz hcookie hrouter
  have hlen : optByte m pucOpt 1 = 1 := (length_eq_of_optByte hle).mpr (by rw [hvalue]; rfl)
  have hack : optByte m pucOpt 2 = dhcpMsgtypAck := by
    rw [optByte_eq hle (by decide)] at hlen ⊢
    rw [valueAt, hlen] at hvalue
    exact (List.cons.inj hvalue).1
  exact ⟨pucNetmask, pucRouter, hreq, hboot, ⟨pucOpt, hopt, hlen, hack⟩,
    ⟨hmaskOpt, (length_eq_of_optByte hmaskLe).mpr hmaskLen⟩, hrouterOpt,
    (length_eq_of_optByte hrouterLe).mpr hrouterLen⟩

end FlashApp.Dhcp
