import FlashApp.Bytes

namespace FlashApp.Eth

open Bytes

/-- The bytes of an `ETH2_PACKET_T`, by their offset. -/
abbrev Frame := Memory

def mus2nus (a : Nat) : Nat := ((a &&& 0xff) <<< 8) ||| ((a >>> 8) &&& 0xff)

def ipAdr (ip3 ip2 ip1 ip0 : Nat) : Nat := (ip0 <<< 24) ||| (ip1 <<< 16) ||| (ip2 <<< 8) ||| ip3

def get16 (f : Frame) (o : Nat) : Nat := (f o).toNat + 2 ^ 8 * (f (o + 1)).toNat

def get32 (f : Frame) (o : Nat) : Nat := le32 (f o) (f (o + 1)) (f (o + 2)) (f (o + 3))

def toLe16 (n : Nat) : List UInt8 := [UInt8.ofNat n, UInt8.ofNat (n / 2 ^ 8)]

def put8 (f : Frame) (o n : Nat) : Frame := store f o [UInt8.ofNat n]

def put16 (f : Frame) (o n : Nat) : Frame := store f o (toLe16 n)

def put32 (f : Frame) (o n : Nat) : Frame := store f o (toLe32 n)

def sizeofEth2Header : Nat := 14
def sizeofIpv4Header : Nat := 20
def sizeofUdpHeader : Nat := 8

namespace IpHdr

def ucVersion : Nat := 14
def ucDSF : Nat := 15
def usLength : Nat := 16
def usId : Nat := 18
def usFlags : Nat := 20
def ucTTL : Nat := 22
def ucProtocol : Nat := 23
def usChecksum : Nat := 24
def ulSrcIp : Nat := 26
def ulDstIp : Nat := 30

end IpHdr

namespace UdpHdr

def usSrcPort : Nat := 34
def usDstPort : Nat := 36
def usLength : Nat := 38
def usChecksum : Nat := 40

end UdpHdr

def uUdpData : Nat := 42

/-- The part of `g_t_romloader_options.t_ethernet` the network stack uses. -/
structure Ethernet where
  acTftpServerName : List UInt8
  acTftpBootfileName : List UInt8
  aucMac : List UInt8
  usTftpPort : Nat
  ulIp : Nat
  ulGatewayIp : Nat
  ulNetmask : Nat
  ulTftpIp : Nat
  ulDnsIp : Nat
  usArpTimeout : Nat
  usDhcpTimeout : Nat
  usDnsTimeout : Nat
  usTftpTimeout : Nat
  ucArpRetries : Nat
  ucDhcpRetries : Nat
  ucDnsRetries : Nat
  ucTftpRetries : Nat
  length_aucMac : aucMac.length = 6

@[simp] theorem length_toLe16 (n : Nat) : (toLe16 n).length = 2 := rfl

theorem mus2nus_eq (a : Nat) : mus2nus a = a % 2 ^ 8 * 2 ^ 8 + a / 2 ^ 8 % 2 ^ 8 := by
  have hlo : a &&& 0xff = a % 2 ^ 8 := Nat.and_two_pow_sub_one_eq_mod a 8
  have hhi : (a >>> 8) &&& 0xff = a / 2 ^ 8 % 2 ^ 8 := by
    rw [Nat.shiftRight_eq_div_pow]
    exact Nat.and_two_pow_sub_one_eq_mod _ 8
  rw [mus2nus, hlo, hhi, ← Nat.shiftLeft_add_eq_or_of_lt (by omega), Nat.shiftLeft_eq]

theorem mus2nus_lt (a : Nat) : mus2nus a < 2 ^ 16 := by
  rw [mus2nus_eq]
  omega

theorem mus2nus_mus2nus {a : Nat} (ha : a < 2 ^ 16) : mus2nus (mus2nus a) = a := by
  have hq : a / 2 ^ 8 % 2 ^ 8 = a / 2 ^ 8 := Nat.mod_eq_of_lt (by omega)
  have hlo : (a % 2 ^ 8 * 2 ^ 8 + a / 2 ^ 8) % 2 ^ 8 = a / 2 ^ 8 := by
    rw [Nat.mul_add_mod_self_right]
    exact hq
  have hhi : (a % 2 ^ 8 * 2 ^ 8 + a / 2 ^ 8) / 2 ^ 8 % 2 ^ 8 = a % 2 ^ 8 := by omega
  rw [mus2nus_eq, mus2nus_eq, hq, hlo, hhi]
  omega

theorem get16_lt (f : Frame) (o : Nat) : get16 f o < 2 ^ 16 := by
  have h0 := (f o).toNat_lt
  have h1 := (f (o + 1)).toNat_lt
  unfold get16
  omega

theorem toLe16_get16 (f : Frame) (o : Nat) : toLe16 (get16 f o) = slice f o 2 := by
  have h0 := (f o).toNat_lt
  have h1 := (f (o + 1)).toNat_lt
  simp only [toLe16, get16, slice, List.cons.injEq, and_true, ← UInt8.toNat_inj, UInt8.toNat_ofNat']
  omega

theorem get16_of_holds {f : Frame} {o n : Nat} (h : Holds f o (toLe16 n)) :
    get16 f o = n % 2 ^ 16 := by
  simp only [toLe16, holds_cons] at h
  obtain ⟨h0, h1, -⟩ := h
  simp only [get16, h0, h1, UInt8.toNat_ofNat']
  omega

theorem store_cons (f : Frame) (o : Nat) (b : UInt8) (bs : List UInt8) (x : Nat) :
    store f o (b :: bs) x = if x = o then b else store f (o + 1) bs x := by
  obtain h | rfl | h := Nat.lt_trichotomy x o
  · simp [store, Nat.not_le.mpr h, Nat.ne_of_lt h, Nat.not_le.mpr (Nat.lt_succ_of_lt h)]
  · simp [store]
  · obtain ⟨k, rfl⟩ := Nat.exists_eq_add_of_lt h
    have hk : o + k + 1 - o = k + 1 := by omega
    have hk' : o + k + 1 - (o + 1) = k := by omega
    have hle : o ≤ o + k + 1 := by omega
    have hle' : o + 1 ≤ o + k + 1 := by omega
    have hne : o + k + 1 ≠ o := by omega
    simp only [store, hk, hk', hle, hle', hne, ↓reduceIte, List.getElem?_cons_succ]

theorem put16_apply (f : Frame) (o n x : Nat) :
    put16 f o n x =
      if x = o then UInt8.ofNat n else if x = o + 1 then UInt8.ofNat (n / 2 ^ 8) else f x := by
  rw [put16, toLe16, store_cons, store_cons, store_nil]

theorem ofNat_get16 (f : Frame) (o : Nat) :
    UInt8.ofNat (get16 f o) = f o ∧ UInt8.ofNat (get16 f o / 2 ^ 8) = f (o + 1) := by
  have h := toLe16_get16 f o
  simpa [toLe16, slice] using h

def exampleEthernet : Ethernet where
  acTftpServerName := List.replicate 64 0
  acTftpBootfileName := List.replicate 128 0
  aucMac := [2, 0, 0, 0, 0, 10]
  usTftpPort := 69
  ulIp := 0
  ulGatewayIp := 0
  ulNetmask := 0
  ulTftpIp := 0
  ulDnsIp := 0
  usArpTimeout := 500
  usDhcpTimeout := 4000
  usDnsTimeout := 2000
  usTftpTimeout := 500
  ucArpRetries := 5
  ucDhcpRetries := 5
  ucDnsRetries := 5
  ucTftpRetries := 5
  length_aucMac := rfl

end FlashApp.Eth
