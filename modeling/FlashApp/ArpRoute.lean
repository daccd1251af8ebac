import FlashApp.UdpChecksum
import FlashApp.ArpRuns

namespace FlashApp.Arp

open Bytes Eth Interaction Udp

/-- What `ipv4_send_packet` does with a frame in the buffer `ptPkt`, after it
has filled in the header. -/
def ipv4SendPacketArp (s : Layer) (uiIpOutputId ptPkt : Nat) (f : Frame) (ulDstIp uiProtocol sizIpUserData : Nat) :
    ArpProg Layer :=
  let r := (ipv4SendPacket s.tEthernet uiIpOutputId f ulDstIp uiProtocol sizIpUserData).1
  arpSendIpv4Packet s ptPkt r.sizPacket r.ulDstIp

/-- An address by its octets, in the order in which it is written. -/
def octets (a b c d : UInt8) : Nat := ipAdr a.toNat b.toNat c.toNat d.toNat

/-- The first octet is in the low byte. -/
def IsMulticast (ulIp : Nat) : Prop := 224 ≤ ulIp % 2 ^ 8 ∧ ulIp % 2 ^ 8 < 240

instance (ulIp : Nat) : Decidable (IsMulticast ulIp) := inferInstanceAs (Decidable (_ ∧ _))

def IsBroadcast (ulIp : Nat) : Prop := ulIp = octets 255 255 255 255

def IsUnicast (ulIp : Nat) : Prop := ¬ IsBroadcast ulIp ∧ ¬ IsMulticast ulIp

/-- The MAC of RFC 1112 for a group address, with its low 23 bits. -/
def rfc1112Mac (b c d : UInt8) : List UInt8 := [0x01, 0x00, 0x5e, b &&& 0x7f, c, d]

def nextHop (o : Ethernet) (ulDstIp : Nat) : Nat :=
  if o.ulNetmask = 0 ∨ ulDstIp &&& o.ulNetmask = o.ulIp &&& o.ulNetmask then ulDstIp else o.ulGatewayIp

/-- The MAC is the right one for a packet to `a.b.c.d`. -/
structure RightMac (s : Layer) (a b c d : UInt8) (tMac : List UInt8) : Prop where
  broadcast : IsBroadcast (octets a b c d) → tMac = List.replicate 6 0xff
  multicast : IsMulticast (octets a b c d) → tMac = rfc1112Mac b c d
  unicast : IsUnicast (octets a b c d) → IsUnicast (nextHop s.tEthernet (octets a b c d)) →
    ∃ i, (s.auiArpCache i).tState = .valid ∧
      (s.auiArpCache i).ulIp = nextHop s.tEthernet (octets a b c d) ∧ (s.auiArpCache i).tMac = tMac

variable {s s' : Layer} {t : List ArpEvent} {p n ulIp : Nat} {a b c d : UInt8}

theorem octets_eq (a b c d : UInt8) : octets a b c d = le32 a b c d := by
  have hrev : ∀ w x y z : Nat, w ||| x ||| y ||| z = z ||| y ||| x ||| w := by
    intro w x y z
    rw [Nat.or_comm, Nat.or_comm (w ||| x), ← Nat.or_assoc, Nat.or_comm w, ← Nat.or_assoc]
  exact hrev _ _ _ _

theorem and_f0_eq_iff (ulIp : Nat) :
    ulIp &&& ipAdr 0xf0 0x00 0x00 0x00 = ipAdr 0xe0 0x00 0x00 0x00 ↔ IsMulticast ulIp := by
  have hmask : ipAdr 0xf0 0x00 0x00 0x00 = 240 := rfl
  have hnet : ipAdr 0xe0 0x00 0x00 0x00 = 224 := rfl
  have hlow : ulIp &&& 240 = (ulIp % 2 ^ 8) &&& 240 := by
    have hlt : ulIp &&& 240 < 2 ^ 8 := Nat.lt_of_le_of_lt Nat.and_le_right (by decide)
    rw [← Nat.mod_eq_of_lt hlt, Nat.and_mod_two_pow]
  have hall : ∀ r < 256, r &&& 240 = 224 ↔ 224 ≤ r ∧ r < 240 := by decide +kernel
  rw [hmask, hnet, hlow]
  exact hall _ (Nat.mod_lt _ (by decide))

theorem not_isBroadcast_of_isMulticast (h : IsMulticast ulIp) : ¬ IsBroadcast ulIp := by
  rintro rfl
  exact absurd h.2 (by decide)

theorem groupMac_of_isBroadcast (h : IsBroadcast ulIp) : groupMac ulIp = some (List.replicate 6 0xff) := by
  have heq : ulIp = ipAdr 255 255 255 255 := h
  rw [groupMac, if_pos heq]
  rfl

theorem groupMac_of_isMulticast (h : IsMulticast ulIp) : groupMac ulIp = some (multicastMac ulIp) := by
  have hne : ¬ ulIp = ipAdr 255 255 255 255 := not_isBroadcast_of_isMulticast h
  rw [groupMac, if_neg hne, if_pos ((and_f0_eq_iff ulIp).mpr h)]

theorem groupMac_of_isUnicast (h : IsUnicast ulIp) : groupMac ulIp = none := by
  have hne : ¬ ulIp = ipAdr 255 255 255 255 := h.1
  rw [groupMac, if_neg hne, if_neg (fun hm => h.2 ((and_f0_eq_iff ulIp).mp hm))]

theorem getDestinationIp_of_group (o : Ethernet) (h : IsBroadcast ulIp ∨ IsMulticast ulIp) :
    ipv4GetDestinationIp o ulIp = ulIp := by
  rw [ipv4GetDestinationIp, if_neg]
  rintro ⟨-, hb, hm⟩
  obtain h | h := h
  · exact hb h
  · exact hm ((and_f0_eq_iff ulIp).mpr h)

theorem getDestinationIp_of_isUnicast (o : Ethernet) (h : IsUnicast ulIp) :
    ipv4GetDestinationIp o ulIp = nextHop o ulIp := by
  have hb : ulIp ≠ ipAdr 0xff 0xff 0xff 0xff := h.1
  have hm : ulIp &&& ipAdr 0xf0 0x00 0x00 0x00 ≠ ipAdr 0xe0 0x00 0x00 0x00 :=
    fun hm => h.2 ((and_f0_eq_iff ulIp).mp hm)
  rw [ipv4GetDestinationIp, nextHop]
  by_cases hz : o.ulNetmask = 0
  · rw [if_neg (fun h => h.1 hz), if_pos (.inl hz)]
  · rw [if_pos ⟨hz, hb, hm⟩]
    by_cases hnet : ulIp &&& o.ulNetmask = o.ulIp &&& o.ulNetmask
    · rw [if_neg (not_not.mpr hnet.symm), if_pos (.inr hnet)]
    · rw [if_pos (Ne.symm hnet), if_neg (not_or.mpr ⟨hz, hnet⟩)]

/-- The octets come out in the wrong order. -/
theorem multicastMac_octets (a b c d : UInt8) : multicastMac (octets a b c d) = [0x01, 0x00, 0x5e, c, b, a] := by
  have ha := a.toNat_lt
  have hb := b.toNat_lt
  have hc := c.toNat_lt
  have hand : ∀ x, x &&& 0xff = x % 2 ^ 8 := fun x => Nat.and_two_pow_sub_one_eq_mod x 8
  rw [multicastMac, octets_eq, le32_eq]
  simp only [hand, Nat.shiftRight_eq_div_pow, List.cons.injEq, and_true, true_and, ← UInt8.toNat_inj,
    UInt8.toNat_ofNat']
  omega

theorem multicastMac_eq_rfc1112Mac_iff :
    multicastMac (octets a b c d) = rfc1112Mac b c d ↔ b = c ∧ b < 128 ∧ d = a := by
  have hand : ∀ x : UInt8, x &&& 0x7f = x ↔ x < 128 := by
    intro x
    have hlow : x.toNat &&& 0x7f = x.toNat % 2 ^ 7 := Nat.and_two_pow_sub_one_eq_mod x.toNat 7
    have hx : x < 128 ↔ x.toNat < 128 := UInt8.lt_iff_toNat_lt
    rw [← UInt8.toNat_inj, UInt8.toNat_and, hx, show (0x7f : UInt8).toNat = 0x7f from rfl, hlow]
    omega
  rw [multicastMac_octets, rfc1112Mac]
  simp only [List.cons.injEq, and_true, true_and]
  constructor
  · rintro ⟨hc, rfl, rfl⟩
    exact ⟨rfl, (hand b).mp hc.symm, rfl⟩
  · rintro ⟨rfl, hlt, rfl⟩
    exact ⟨((hand b).mpr hlt).symm, rfl, rfl⟩

theorem Sends.mac {q m : Nat} {tMac : List UInt8} (hs : Sends s p n ulIp t s')
    (hmem : (q, m, tMac) ∈ ipSends t) :
    q = p ∧ m = n ∧ (groupMac ulIp = some tMac ∨
      groupMac ulIp = none ∧ ∃ i, (s.auiArpCache i).tState = .valid ∧ (s.auiArpCache i).ulIp = ulIp ∧
        (s.auiArpCache i).tMac = tMac) := by
  cases hs with
  | group hg ht _ =>
    rw [ht, List.mem_singleton] at hmem
    obtain ⟨rfl, rfl, rfl⟩ := hmem
    exact ⟨rfl, rfl, .inl hg⟩
  | @cached i _ _ hg hst hip _ ht _ =>
    rw [ht, List.mem_singleton] at hmem
    obtain ⟨rfl, rfl, rfl⟩ := hmem
    exact ⟨rfl, rfl, .inr ⟨hg, i, hst, hip, rfl⟩⟩
  | joins => cases hmem
  | asks _ _ _ _ _ ht _ =>
    rw [ht] at hmem
    cases hmem
  | full => cases hmem

theorem rightMac_of_sends {q m : Nat} {tMac : List UInt8}
    (hs : Sends s p n (ipv4GetDestinationIp s.tEthernet (octets a b c d)) t s')
    (hmem : (q, m, tMac) ∈ ipSends t)
    (hgroup : IsMulticast (octets a b c d) → multicastMac (octets a b c d) = rfc1112Mac b c d) :
    RightMac s a b c d tMac := by
  obtain ⟨-, -, hmac⟩ := hs.mac hmem
  refine ⟨fun hb => ?_, fun hm => ?_, fun hu hhop => ?_⟩
  · rw [getDestinationIp_of_group _ (.inl hb), groupMac_of_isBroadcast hb] at hmac
    obtain h | ⟨h, -⟩ := hmac
    · exact (Option.some.inj h).symm
    · cases h
  · rw [getDestinationIp_of_group _ (.inr hm), groupMac_of_isMulticast hm] at hmac
    obtain h | ⟨h, -⟩ := hmac
    · exact (Option.some.inj h).symm.trans (hgroup hm)
    · cases h
  · rw [getDestinationIp_of_isUnicast _ hu, groupMac_of_isUnicast hhop] at hmac
    obtain h | ⟨-, h⟩ := hmac
    · cases h
    · exact h

theorem runs_multicast (uiIpOutputId ptPkt : Nat) (f : Frame) (uiProtocol siz : Nat) (h : IsMulticast ulIp) :
    Runs (ipv4SendPacketArp s uiIpOutputId ptPkt f ulIp uiProtocol siz)
      [⟨.ethSendPacket ptPkt (add32 20 siz) (multicastMac ulIp) eth2headerTypIp, ()⟩] s := by
  have hdst : (ipv4SendPacket s.tEthernet uiIpOutputId f ulIp uiProtocol siz).1.ulDstIp = ulIp :=
    getDestinationIp_of_group _ (.inr h)
  simp only [ipv4SendPacketArp, arpSendIpv4Packet, hdst, groupMac_of_isMulticast h]
  exact Runs.perform_bind ⟨rfl, rfl⟩

/-- A packet that is sent at once has its own destination in the header, and
the MAC is the right one for it, except for multicast addresses. There the MAC
is built from the wrong octets, which makes no difference only for a few of
the addresses. -/
theorem link_address_iff (s : Layer) (uiIpOutputId ptPkt : Nat) (f : Frame) (a b c d : UInt8)
    (uiProtocol siz : Nat) :
    (∀ t s' q m tMac, Runs (ipv4SendPacketArp s uiIpOutputId ptPkt f (octets a b c d) uiProtocol siz) t s' →
      (q, m, tMac) ∈ ipSends t →
        q = ptPkt ∧ m = add32 20 siz ∧
          slice (ipv4SendPacket s.tEthernet uiIpOutputId f (octets a b c d) uiProtocol siz).1.ptPkt
            IpHdr.ulDstIp 4 = [a, b, c, d] ∧
          RightMac s a b c d tMac) ↔
      (224 ≤ a ∧ a < 240 → b = c ∧ b < 128 ∧ d = a) := by
  have hmulti : IsMulticast (octets a b c d) ↔ 224 ≤ a ∧ a < 240 := by
    have ha := a.toNat_lt
    have hlow : octets a b c d % 2 ^ 8 = a.toNat := by
      rw [octets_eq, le32_eq]
      omega
    rw [IsMulticast, hlow, UInt8.le_iff_toNat_le, UInt8.lt_iff_toNat_lt]
    rfl
  rw [← hmulti, ← multicastMac_eq_rfc1112Mac_iff]
  constructor
  · intro h hm
    obtain ⟨-, -, -, hmac⟩ := h _ _ ptPkt (add32 20 siz) (multicastMac (octets a b c d))
      (runs_multicast uiIpOutputId ptPkt f uiProtocol siz hm) (List.mem_singleton.mpr rfl)
    exact hmac.multicast hm
  · intro hgroup t s' q m tMac hr hmem
    have hs := runs_sendIpv4Packet hr
    obtain ⟨hq, hm, -⟩ := hs.mac hmem
    refine ⟨hq, hm, ?_, rightMac_of_sends hs hmem hgroup⟩
    obtain ⟨-, -, -, hdst, -⟩ :=
      ipv4SendPacket_frame s.tEthernet uiIpOutputId f (octets a b c d) uiProtocol siz
    rw [hdst, octets_eq, toLe32_le32]

def emptyLayer : Layer :=
  ⟨fun _ => ⟨.unused, 0, 0, List.replicate 6 0, 0, 0⟩, fun _ => ⟨0, 0, 0⟩, exampleEthernet⟩

/-- A packet to 224.0.0.251 is sent to 01:00:5e:00:00:e0. -/
theorem multicast_wrong_mac :
    ¬ ∀ (s : Layer) (uiIpOutputId ptPkt : Nat) (f : Frame) (a b c d : UInt8) (uiProtocol siz : Nat)
      (t : List ArpEvent) (s' : Layer) (q m : Nat) (tMac : List UInt8),
      Runs (ipv4SendPacketArp s uiIpOutputId ptPkt f (octets a b c d) uiProtocol siz) t s' →
        (q, m, tMac) ∈ ipSends t → RightMac s a b c d tMac := by
  intro h
  have hm : IsMulticast (octets 224 0 0 251) := by decide
  have hmac := h emptyLayer 0 0 (fun _ => 0) 224 0 0 251 17 8 _ _ 0 28 _
    (runs_multicast 0 0 (fun _ => 0) 17 8 hm) (List.mem_singleton.mpr rfl)
  have heq := hmac.multicast hm
  rw [multicastMac_octets] at heq
  revert heq
  decide

end FlashApp.Arp
