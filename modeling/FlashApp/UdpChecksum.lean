import FlashApp.Udp
import FlashApp.OnesComplement

namespace FlashApp.Udp

open Bytes Eth Slots OnesComplement

def toBe16 (n : Nat) : List UInt8 := [UInt8.ofNat (n / 2 ^ 8), UInt8.ofNat n]

def getBe16 (f : Frame) (o : Nat) : Nat := (f o).toNat * 2 ^ 8 + (f (o + 1)).toNat

/-- The UDP checksum of RFC 768: the complement of the one's complement sum over
the pseudo header, the UDP header with a zero checksum, and the data. A result
of 0 is replaced by 0xffff. All parameters are bytes as they are transmitted. -/
def rfc768 (srcIp dstIp srcPort dstPort data : List UInt8) : Nat :=
  let size := toBe16 (8 + data.length)
  let pseudoHeader := srcIp ++ dstIp ++ [0, 17] ++ size
  let udpHeader := srcPort ++ dstPort ++ size ++ [0, 0]
  let sum := 0xffff - onesSum (words (pseudoHeader ++ udpHeader ++ data))
  if sum = 0 then 0xffff else sum

/-- The bytes that `udp_buildChecksum` sums up for `n` bytes of data. -/
def udpSummed (f : Frame) (n : Nat) : List UInt8 :=
  f IpHdr.ucProtocol :: (slice f UdpHdr.usLength 2 ++ (slice f IpHdr.ulSrcIp 8 ++
    (slice f UdpHdr.usSrcPort 6 ++ ([0, 0] ++ slice f uUdpData n))))

def udpFilled {H : Type} (o : Ethernet) (a : Assoc H) (f : Frame) (n : Nat) : Frame :=
  let f := put8 f IpHdr.ucProtocol ipProtocolUdp
  let f := put32 f IpHdr.ulSrcIp o.ulIp
  let f := put32 f IpHdr.ulDstIp a.ulRemoteIp
  let f := put16 f UdpHdr.usSrcPort a.uiLocalPort
  let f := put16 f UdpHdr.usDstPort a.uiRemotePort
  put16 f UdpHdr.usLength (mus2nus (8 + n))

variable {H : Type} {f g : Frame} {n : Nat}

theorem xor_ffff {c : Nat} (hc : c ≤ 0xffff) : c ^^^ 0xffff = 0xffff - c := by
  have hnot : (BitVec.ofNat 16 c ^^^ BitVec.allOnes 16).toNat = 2 ^ 16 - 1 - (BitVec.ofNat 16 c).toNat := by
    rw [BitVec.xor_allOnes, BitVec.toNat_not]
  rw [BitVec.toNat_xor, BitVec.toNat_ofNat, BitVec.toNat_allOnes, Nat.mod_eq_of_lt (by omega)] at hnot
  exact hnot

/-- The loop adds the bytes at even positions as high bytes. -/
theorem checksumLoop_eq (bs : List UInt8) (sizPos t : Nat) :
    checksumLoop bs sizPos (fold t) = fold (t + weigh (sizPos % 2 == 0) bs) := by
  induction bs generalizing sizPos t with
  | nil => simp [checksumLoop, weigh]
  | cons b bs ih =>
    have hb := b.toNat_lt
    have hshift : b.toNat <<< (((sizPos + 1) &&& 1) <<< 3) =
        b.toNat * (if (sizPos % 2 == 0) = true then 2 ^ 8 else 1) := by
      rw [Nat.and_one_is_mod, Nat.shiftLeft_eq]
      obtain h | h := Nat.mod_two_eq_zero_or_one sizPos
      · simp [h, Nat.add_mod]
      · simp [h, Nat.add_mod]
    have hpar : (!(sizPos % 2 == 0)) = ((sizPos + 1) % 2 == 0) := by
      obtain h | h := Nat.mod_two_eq_zero_or_one sizPos <;> simp [h, Nat.add_mod]
    have hle : b.toNat * (if (sizPos % 2 == 0) = true then 2 ^ 8 else 1) ≤ 0xffff := by
      split <;> omega
    have hstep : ∀ d, d ≤ 0xffff → ((fold t + d) &&& 0xffff) + (fold t + d) >>> 16 = fold (t + d) := by
      intro d hd
      rw [Nat.and_two_pow_sub_one_eq_mod _ 16, Nat.shiftRight_eq_div_pow]
      exact add16_fold hd
    simp only [checksumLoop, hshift]
    rw [hstep _ hle, ih, weigh, hpar, Nat.add_assoc]

theorem checksumAddComplement_eq (f : Frame) (a n : Nat) :
    checksumAddComplement f a n = complement (fold (weigh true (slice f a n))) := by
  have hloop := checksumLoop_eq (slice f a n) 0 0
  have hle := fold_le (weigh true (slice f a n))
  rw [show fold 0 = 0 from rfl, Nat.zero_add] at hloop
  simp only [checksumAddComplement, hloop, Nat.zero_mod, beq_self_eq_true]
  rw [complement, xor_ffff hle]
  by_cases h : fold (weigh true (slice f a n)) = 0xffff
  · simp [h]
  · simp [h]

theorem checksumLoop_append (xs ys : List UInt8) (sizPos ulChkSum : Nat) :
    checksumLoop (xs ++ ys) sizPos ulChkSum =
      checksumLoop ys (sizPos + xs.length) (checksumLoop xs sizPos ulChkSum) := by
  induction xs generalizing sizPos ulChkSum with
  | nil => rfl
  | cons x xs ih =>
    have hpos : sizPos + (x :: xs).length = sizPos + 1 + xs.length := by
      rw [List.length_cons]
      omega
    rw [List.cons_append, hpos]
    exact ih (sizPos + 1) _

/-- The running sum is the sum of the words read so far. A single byte counts
for a word as soon as it is added. -/
theorem checksumLoop_eq_onesSum (bs : List UInt8) : checksumLoop bs 0 0 = onesSum (words bs) := by
  have h := checksumLoop_eq bs 0 0
  rwa [show fold 0 = 0 from rfl, Nat.zero_add, Nat.zero_mod, beq_self_eq_true, ← onesSum_words] at h

theorem weigh_append_zeros (hi : Bool) (xs : List UInt8) {ys : List UInt8} (hys : ∀ y ∈ ys, y = 0) :
    weigh hi (xs ++ ys) = weigh hi xs := by
  have hzero : weigh (xor hi (xs.length % 2 == 1)) ys = 0 := by
    rw [weigh_eq_zero_iff]
    intro y hy
    rw [hys y hy]
    rfl
  rw [weigh_append, hzero, Nat.add_zero]

/-- The complement of the sum of RFC 1071, with 0xffff for 0. The sum never
leaves the 16 bits, so no carry is lost, and zeros at the end do not count. -/
theorem checksumAddComplement_rfc1071 (f : Frame) (a n : Nat) :
    checksumAddComplement f a n =
        (if 0xffff - onesSum (words (slice f a n)) = 0 then 0xffff
          else 0xffff - onesSum (words (slice f a n))) ∧
      (∀ k ≤ n, checksumLoop (slice f a k) 0 0 = onesSum (words (slice f a k)) ∧
        checksumLoop (slice f a k) 0 0 ≤ 0xffff ∧
        checksumLoop (slice f a n) 0 0 =
          checksumLoop (slice f (a + k) (n - k)) k (checksumLoop (slice f a k) 0 0)) ∧
      ∀ k ≤ n, (∀ x, a + k ≤ x → x < a + n → f x = 0) →
        checksumAddComplement f a n = checksumAddComplement f a k := by
  have hsplit : ∀ k ≤ n, slice f a n = slice f a k ++ slice f (a + k) (n - k) := by
    intro k hk
    rw [← slice_add, Nat.add_sub_cancel' hk]
  refine ⟨?_, ?_, ?_⟩
  · have hle := fold_le (weigh true (slice f a n))
    rw [checksumAddComplement_eq, onesSum_words, complement]
    split_ifs <;> omega
  · intro k hk
    refine ⟨checksumLoop_eq_onesSum _, ?_, ?_⟩
    · rw [checksumLoop_eq_onesSum, onesSum_words]
      exact fold_le _
    · rw [hsplit k hk, checksumLoop_append, length_slice, Nat.zero_add]
  · intro k hk hzero
    have hzeros : ∀ y ∈ slice f (a + k) (n - k), y = 0 := by
      intro y hy
      obtain ⟨i, hi, rfl⟩ := mem_slice.mp hy
      exact hzero _ (by omega) (by omega)
    rw [checksumAddComplement_eq, checksumAddComplement_eq, hsplit k hk, weigh_append_zeros true _ hzeros]

theorem checksumAddComplement_rfc1071_three :
    checksumAddComplement (fun x => if x = 0 then 1 else 0) 0 3 = 0xfeff ∧
      checksumAddComplement (fun x => if x = 0 then 1 else 0) 0 3 =
        checksumAddComplement (fun x => if x = 0 then 1 else 0) 0 1 := by
  obtain ⟨hsum, -, hzeros⟩ := checksumAddComplement_rfc1071 (fun x => if x = 0 then 1 else 0) 0 3
  refine ⟨?_, hzeros 1 (by decide) ?_⟩
  · rw [hsum]
    decide
  · intro x hlo hhi
    exact if_neg (by omega)

@[simp] theorem length_toBe16 (n : Nat) : (toBe16 n).length = 2 := rfl

theorem toLe16_mus2nus (n : Nat) : toLe16 (mus2nus n) = toBe16 n := by
  rw [mus2nus_eq]
  simp only [toLe16, toBe16, List.cons.injEq, and_true, ← UInt8.toNat_inj, UInt8.toNat_ofNat']
  have hlo : n % 2 ^ 8 < 2 ^ 8 := Nat.mod_lt _ (by decide)
  have hhi : n / 2 ^ 8 % 2 ^ 8 < 2 ^ 8 := Nat.mod_lt _ (by decide)
  generalize n % 2 ^ 8 = lo at hlo ⊢
  generalize n / 2 ^ 8 % 2 ^ 8 = hi at hhi ⊢
  omega

theorem slice_put16_self (f : Frame) (o v : Nat) : slice (put16 f o v) o 2 = toLe16 v :=
  holds_store f o (toLe16 v)

theorem slice_put32_self (f : Frame) (o v : Nat) : slice (put32 f o v) o 4 = toLe32 v :=
  holds_store f o (toLe32 v)

theorem slice_put16_out (f : Frame) {o a n : Nat} (v : Nat) (h : a + n ≤ o ∨ o + 2 ≤ a) :
    slice (put16 f o v) a n = slice f a n := slice_store_out f h

theorem slice_put32_out (f : Frame) {o a n : Nat} (v : Nat) (h : a + n ≤ o ∨ o + 4 ≤ a) :
    slice (put32 f o v) a n = slice f a n := slice_store_out f h

theorem slice_put8_out (f : Frame) {o a n : Nat} (v : Nat) (h : a + n ≤ o ∨ o + 1 ≤ a) :
    slice (put8 f o v) a n = slice f a n := slice_store_out f h

/-- The slot of the IP checksum lends itself to the UDP length, so that the
pseudo header comes right before the UDP header. -/
theorem slice_udpSummed (f : Frame) (n : Nat) :
    slice (put16 (put16 f IpHdr.usChecksum (get16 f UdpHdr.usLength)) UdpHdr.usChecksum 0)
      IpHdr.ucProtocol (8 + n + 11) = udpSummed f n := by
  rw [show 8 + n + 11 = 1 + (2 + (8 + (6 + (2 + n)))) by omega]
  simp only [slice_add, udpSummed, IpHdr.ucProtocol, IpHdr.usChecksum, UdpHdr.usLength, UdpHdr.usChecksum,
    IpHdr.ulSrcIp, UdpHdr.usSrcPort, uUdpData, Nat.reduceAdd]
  simp (disch := omega) only [slice_put16_out, slice_put16_self]
  rw [toLe16_get16]
  rfl

theorem udpBuildChecksum_eq (f : Frame) (n : Nat) :
    (udpBuildChecksum f (8 + n)).2 = complement (fold (weigh true (udpSummed f n))) := by
  simp only [udpBuildChecksum]
  rw [checksumAddComplement_eq, slice_udpSummed]
  exact Nat.mod_eq_of_lt (Nat.lt_succ_of_le (complement_le _))

theorem udpSendPacket_eq (o : Ethernet) (uiIpOutputId : Nat) (t : Table H) (f : Frame) (n : Nat) (i : Fin 8) :
    udpSendPacket o uiIpOutputId t f n (some i) =
      some (ipv4SendPacket o uiIpOutputId
        (put16 (udpFilled o (t i) f n) UdpHdr.usChecksum
          (complement (fold (weigh true (udpSummed (udpFilled o (t i) f n) n)))))
        (t i).ulRemoteIp ipProtocolUdp (8 + n)) := by
  rw [← udpBuildChecksum_eq]
  have hframe := udpBuildChecksum_frame (udpFilled o (t i) f n) (8 + n)
  simp only [udpSendPacket, sizeofUdpHeader]
  rw [udpFilled] at hframe
  rw [hframe]
  rfl

theorem udpSummed_filled (o : Ethernet) (a : Assoc H) (f : Frame) (n : Nat) :
    udpSummed (udpFilled o a f n) n =
      17 :: (toBe16 (8 + n) ++ ((toLe32 o.ulIp ++ toLe32 a.ulRemoteIp) ++
        ((toLe16 a.uiLocalPort ++ (toLe16 a.uiRemotePort ++ toBe16 (8 + n))) ++
          ([0, 0] ++ slice f uUdpData n)))) := by
  have hips : ∀ g : Frame, slice g 26 8 = slice g 26 4 ++ slice g 30 4 := fun g => slice_add g 26 4 4
  have hhdr : ∀ g : Frame, slice g 34 6 = slice g 34 2 ++ (slice g 36 2 ++ slice g 38 2) := by
    intro g
    rw [slice_add g 34 2 4, slice_add g 36 2 2]
  have hproto : udpFilled o a f n 23 = 17 := rfl
  rw [udpSummed, ← toLe16_mus2nus]
  simp only [IpHdr.ucProtocol, IpHdr.ulSrcIp, UdpHdr.usSrcPort, UdpHdr.usLength, uUdpData, hips, hhdr, hproto]
  simp only [udpFilled, IpHdr.ucProtocol, IpHdr.ulSrcIp, IpHdr.ulDstIp, UdpHdr.usSrcPort, UdpHdr.usDstPort,
    UdpHdr.usLength]
  simp (disch := omega) only [slice_put8_out, slice_put16_out, slice_put32_out, slice_put16_self,
    slice_put32_self]

theorem weigh_toBe16 {c : Nat} (hc : c ≤ 0xffff) : weigh true (toBe16 c) = c := by
  simp only [toBe16, weigh, UInt8.toNat_ofNat', Bool.not_true, ↓reduceIte, Bool.false_eq_true]
  omega

theorem header_sum {g : Frame} (h0 : slice g IpHdr.usChecksum 2 = [0, 0]) :
    onesSum (words (slice (put16 g IpHdr.usChecksum (mus2nus (checksumAddComplement g IpHdr.ucVersion 20)))
      IpHdr.ucVersion 20)) = 0xffff := by
  have hsplit : ∀ g : Frame, slice g 14 20 = slice g 14 10 ++ (slice g 24 2 ++ slice g 26 8) := by
    intro g
    rw [slice_add g 14 10 10, slice_add g 24 2 8]
  simp only [IpHdr.usChecksum, IpHdr.ucVersion] at h0 ⊢
  rw [checksumAddComplement_eq]
  generalize hw : weigh true (slice g 14 20) = w
  rw [onesSum_words, hsplit, slice_put16_self, toLe16_mus2nus, slice_put16_out _ _ (by omega),
    slice_put16_out _ _ (by omega), weigh_append_even (by simp), weigh_append_even (by simp),
    weigh_toBe16 (complement_le _)]
  rw [hsplit, h0, weigh_append_even (by simp), weigh_append_even (by simp), show weigh true [0, 0] = 0 from rfl] at hw
  rw [← fold_add_complement w]
  apply congrArg fold
  omega

theorem ipv4SendPacket_frame (o : Ethernet) (uiIpOutputId : Nat) (f : Frame) (ulDstIp uiProtocol siz : Nat) :
    let r := (ipv4SendPacket o uiIpOutputId f ulDstIp uiProtocol siz).1.ptPkt
    (∀ a n, 34 ≤ a → slice r a n = slice f a n) ∧ slice r IpHdr.ucProtocol 1 = [UInt8.ofNat uiProtocol] ∧
      slice r IpHdr.ulSrcIp 4 = toLe32 o.ulIp ∧ slice r IpHdr.ulDstIp 4 = toLe32 ulDstIp ∧
      onesSum (words (slice r IpHdr.ucVersion 20)) = 0xffff := by
  have hself : ∀ (f : Frame) (v : Nat), slice (put8 f 23 v) 23 1 = [UInt8.ofNat v] :=
    fun f v => holds_store f 23 [UInt8.ofNat v]
  refine ⟨fun a n ha => ?_, ?_, ?_, ?_, ?_⟩
  · simp only [ipv4SendPacket, IpHdr.ucVersion, IpHdr.ucDSF, IpHdr.usLength, IpHdr.usId, IpHdr.usFlags,
      IpHdr.ucTTL, IpHdr.ucProtocol, IpHdr.usChecksum, IpHdr.ulSrcIp, IpHdr.ulDstIp]
    simp (disch := omega) only [slice_put8_out, slice_put16_out, slice_put32_out]
  · simp only [ipv4SendPacket, IpHdr.ucProtocol, IpHdr.usChecksum, IpHdr.ulSrcIp, IpHdr.ulDstIp]
    simp (disch := omega) only [slice_put16_out, slice_put32_out, hself]
  · simp only [ipv4SendPacket, IpHdr.usChecksum, IpHdr.ulSrcIp, IpHdr.ulDstIp]
    simp (disch := omega) only [slice_put16_out, slice_put32_out, slice_put32_self]
  · simp only [ipv4SendPacket, IpHdr.usChecksum, IpHdr.ulDstIp]
    simp (disch := omega) only [slice_put16_out, slice_put32_self]
  · apply header_sum
    simp only [IpHdr.usChecksum, IpHdr.ulSrcIp, IpHdr.ulDstIp]
    simp (disch := omega) only [slice_put32_out, slice_put16_self]
    rfl

/-- The frame of a packet with `n` bytes of data, as it is sent. -/
structure Built (o : Ethernet) (a : Assoc H) (f : Frame) (n : Nat) (f' : Frame) : Prop where
  data : slice f' uUdpData n = slice f uUdpData n
  summed : udpSummed f' n = udpSummed (udpFilled o a f n) n
  checksum : get16 f' UdpHdr.usChecksum = complement (fold (weigh true (udpSummed f' n)))
  length : get16 f' UdpHdr.usLength = mus2nus (8 + n)
  dstPort : get16 f' UdpHdr.usDstPort = a.uiRemotePort % 2 ^ 16
  header : onesSum (words (slice f' IpHdr.ucVersion 20)) = 0xffff

theorem get16_of_slice {f : Frame} {o n : Nat} (h : slice f o 2 = toLe16 n) : get16 f o = n % 2 ^ 16 :=
  get16_of_holds h

theorem udpSummed_eq_of_slices {f g : Frame} {n : Nat}
    (hproto : slice f IpHdr.ucProtocol 1 = slice g IpHdr.ucProtocol 1)
    (hips : slice f IpHdr.ulSrcIp 8 = slice g IpHdr.ulSrcIp 8)
    (hhdr : slice f UdpHdr.usSrcPort 6 = slice g UdpHdr.usSrcPort 6)
    (hlen : slice f UdpHdr.usLength 2 = slice g UdpHdr.usLength 2)
    (hdata : slice f uUdpData n = slice g uUdpData n) : udpSummed f n = udpSummed g n := by
  have hbyte : f IpHdr.ucProtocol = g IpHdr.ucProtocol := by
    simpa [slice] using hproto
  rw [udpSummed, udpSummed, hbyte, hips, hhdr, hlen, hdata]

theorem built_ipv4SendPacket (o : Ethernet) (uiIpOutputId : Nat) (a : Assoc H) (f : Frame) (n : Nat) {c : Nat}
    (hc : c = complement (fold (weigh true (udpSummed (udpFilled o a f n) n)))) :
    Built o a f n (ipv4SendPacket o uiIpOutputId (put16 (udpFilled o a f n) UdpHdr.usChecksum c)
      a.ulRemoteIp ipProtocolUdp (8 + n)).1.ptPkt := by
  obtain ⟨hrest, hproto, hsrc, hdst, hheader⟩ := ipv4SendPacket_frame o uiIpOutputId
    (put16 (udpFilled o a f n) UdpHdr.usChecksum c) a.ulRemoteIp ipProtocolUdp (8 + n)
  generalize (ipv4SendPacket o uiIpOutputId _ a.ulRemoteIp ipProtocolUdp (8 + n)).1.ptPkt = f'
    at hrest hproto hsrc hdst hheader ⊢
  have hcle : c ≤ 0xffff := hc ▸ complement_le _
  have hfilled : ∀ b k, 34 ≤ b → b + k ≤ 40 ∨ 42 ≤ b →
      slice f' b k = slice (udpFilled o a f n) b k := by
    intro b k hb hbk
    rw [hrest b k hb]
    apply slice_put16_out
    simp only [UdpHdr.usChecksum]
    omega
  have hdata : slice f' uUdpData n = slice f uUdpData n := by
    rw [hfilled _ _ (by decide) (.inr (by decide))]
    simp only [udpFilled, IpHdr.ucProtocol, IpHdr.ulSrcIp, IpHdr.ulDstIp, UdpHdr.usSrcPort,
      UdpHdr.usDstPort, UdpHdr.usLength, uUdpData]
    simp (disch := omega) only [slice_put8_out, slice_put16_out, slice_put32_out]
  have hips : slice f' IpHdr.ulSrcIp 8 = slice (udpFilled o a f n) IpHdr.ulSrcIp 8 := by
    rw [slice_add f' _ 4 4, hsrc, slice_add _ _ 4 4]
    simp only [IpHdr.ulSrcIp, IpHdr.ulDstIp, Nat.reduceAdd] at hdst ⊢
    rw [hdst]
    simp only [udpFilled, IpHdr.ucProtocol, IpHdr.ulSrcIp, IpHdr.ulDstIp, UdpHdr.usSrcPort,
      UdpHdr.usDstPort, UdpHdr.usLength]
    simp (disch := omega) only [slice_put16_out, slice_put32_out, slice_put32_self]
  have hsummed : udpSummed f' n = udpSummed (udpFilled o a f n) n := by
    refine udpSummed_eq_of_slices ?_ hips (hfilled _ _ (by decide) (.inl (by decide)))
      (hfilled _ _ (by decide) (.inl (by decide))) (hfilled _ _ (by decide) (.inr (by decide)))
    rw [hproto]
    rfl
  refine ⟨hdata, hsummed, ?_, ?_, ?_, hheader⟩
  · have hslot := hrest UdpHdr.usChecksum 2 (by decide)
    rw [slice_put16_self] at hslot
    rw [get16_of_slice hslot, hsummed, ← hc]
    omega
  · have hslot := hfilled UdpHdr.usLength 2 (by decide) (.inl (by decide))
    rw [udpFilled, slice_put16_self] at hslot
    rw [get16_of_slice hslot]
    exact Nat.mod_eq_of_lt (mus2nus_lt _)
  · apply get16_of_slice
    rw [hfilled _ _ (by decide) (.inl (by decide)), udpFilled, slice_put16_out _ _ (by decide), slice_put16_self]

theorem built_udpSendPacket (o : Ethernet) (uiIpOutputId : Nat) (t : Table H) (f : Frame) (hn : n ≤ 65507)
    (i : Fin 8) :
    ∃ r id, udpSendPacket o uiIpOutputId t f n (some i) = some (r, id) ∧ r.sizPacket = 28 + n ∧
      Built o (t i) f n r.ptPkt := by
  have hbuilt := built_ipv4SendPacket o uiIpOutputId (t i) f n rfl
  have hsiz : (ipv4SendPacket o uiIpOutputId
      (put16 (udpFilled o (t i) f n) UdpHdr.usChecksum
        (complement (fold (weigh true (udpSummed (udpFilled o (t i) f n) n)))))
      (t i).ulRemoteIp ipProtocolUdp (8 + n)).1.sizPacket = 28 + n := by
    simp only [ipv4SendPacket, sizeofIpv4Header]
    rw [add32_of_lt (by omega)]
    omega
  exact ⟨_, _, udpSendPacket_eq o uiIpOutputId t f n i, hsiz, hbuilt⟩

theorem rfc768_eq (srcIp dstIp srcPort dstPort data : List UInt8) :
    rfc768 srcIp dstIp srcPort dstPort data = complement (fold (weigh true
      (srcIp ++ dstIp ++ [0, 17] ++ toBe16 (8 + data.length) ++
        (srcPort ++ dstPort ++ toBe16 (8 + data.length) ++ [0, 0]) ++ data))) := by
  simp only [rfc768, onesSum_words]
  generalize weigh true _ = w
  have hle := fold_le w
  rw [complement]
  split_ifs <;> omega

/-- The sum of the code starts in the middle of a word: it is the sum of the
RFC with the bytes of each word exchanged. -/
theorem weigh_pseudoHeader {ips ports : List UInt8} (hips : ips.length % 2 = 0) (hports : ports.length % 2 = 0)
    (size data : List UInt8) (hsize : size.length = 2) :
    weigh false (17 :: (size ++ (ips ++ ((ports ++ size) ++ ([0, 0] ++ data))))) =
      weigh true (ips ++ [0, 17] ++ size ++ (ports ++ size ++ [0, 0]) ++ data) := by
  have hsize' : size.length % 2 = 0 := by rw [hsize]
  have hzero : weigh true ([0, 0] ++ data) = weigh true data := by
    rw [weigh_append_even rfl]
    simp [weigh]
  have hcode : weigh false (17 :: (size ++ (ips ++ ((ports ++ size) ++ ([0, 0] ++ data))))) =
      17 + (weigh true size + (weigh true ips + (weigh true ports + (weigh true size + weigh true data)))) := by
    rw [weigh, Bool.not_false, weigh_append_even hsize', weigh_append_even hips, List.append_assoc,
      weigh_append_even hports, weigh_append_even hsize', hzero]
    rfl
  have hrfc : weigh true (ips ++ [0, 17] ++ size ++ (ports ++ size ++ [0, 0]) ++ data) =
      weigh true ips + (17 + (weigh true size + (weigh true ports + (weigh true size + weigh true data)))) := by
    simp only [List.append_assoc]
    rw [weigh_append_even hips, weigh_append_even rfl, weigh_append_even hsize', weigh_append_even hports,
      weigh_append_even hsize', hzero]
    rfl
  omega

theorem getBe16_eq (f : Frame) (o : Nat) : getBe16 f o = swap16 (get16 f o) := by
  have h0 := (f o).toNat_lt
  have h1 := (f (o + 1)).toNat_lt
  simp only [getBe16, get16, swap16]
  omega

theorem Built.rfc768 {o : Ethernet} {a : Assoc H} {f' : Frame} (hb : Built o a f n f') :
    getBe16 f' UdpHdr.usChecksum = Udp.rfc768 (toLe32 o.ulIp) (toLe32 a.ulRemoteIp) (toLe16 a.uiLocalPort)
      (toLe16 a.uiRemotePort) (slice f uUdpData n) := by
  have hports : (toLe16 a.uiLocalPort ++ toLe16 a.uiRemotePort).length % 2 = 0 := by simp
  have hips : (toLe32 o.ulIp ++ toLe32 a.ulRemoteIp).length % 2 = 0 := by simp
  rw [getBe16_eq, hb.checksum, swap16_complement (fold_le _), swap16_fold_weigh, hb.summed, udpSummed_filled,
    rfc768_eq, length_slice, Bool.not_true, ← weigh_pseudoHeader hips hports _ _ (length_toBe16 _)]
  simp only [List.append_assoc]

/-- A frame with the same IP packet. -/
def SamePacket (f' : Frame) (n : Nat) (g : Frame) : Prop := ∀ x, 14 ≤ x → x < 42 + n → g x = f' x

theorem SamePacket.slice_eq {f' : Frame} (h : SamePacket f' n g) {a k : Nat} (ha : 14 ≤ a)
    (hk : a + k ≤ 42 + n) : slice g a k = slice f' a k :=
  slice_congr fun x hx hx' => h x (le_trans ha hx) (lt_of_lt_of_le hx' hk)

theorem SamePacket.get16_eq {f' : Frame} (h : SamePacket f' n g) {a : Nat} (ha : 14 ≤ a) (hk : a + 2 ≤ 42) :
    get16 g a = get16 f' a := by
  rw [get16, get16, h a ha (by omega), h (a + 1) (by omega) (by omega)]

theorem SamePacket.udpSummed_eq {f' : Frame} (h : SamePacket f' n g) : udpSummed g n = udpSummed f' n :=
  udpSummed_eq_of_slices (h.slice_eq (by decide) (by simp only [IpHdr.ucProtocol]; omega))
    (h.slice_eq (by decide) (by simp only [IpHdr.ulSrcIp]; omega))
    (h.slice_eq (by decide) (by simp only [UdpHdr.usSrcPort]; omega))
    (h.slice_eq (by decide) (by simp only [UdpHdr.usLength]; omega))
    (h.slice_eq (by decide) (by simp only [uUdpData]; omega))

theorem accepted_iff {siz : Nat} (hlen : mus2nus (get16 g UdpHdr.usLength) = 8 + n) (hsiz : 42 + n ≤ siz) :
    Accepted g siz ↔ complement (fold (weigh true (udpSummed g n))) = get16 g UdpHdr.usChecksum := by
  rw [Accepted, hlen, udpBuildChecksum_eq, sizeofEth2Header, sizeofIpv4Header, sizeofUdpHeader]
  constructor
  · exact fun h => h.2.2
  · exact fun h => ⟨by omega, by omega, h⟩

theorem Built.accepted {o : Ethernet} {a : Assoc H} {f' : Frame} (hb : Built o a f n f') (hn : n ≤ 65507)
    (hg : SamePacket f' n g) {siz : Nat} (hsiz : 42 + n ≤ siz) : Accepted g siz := by
  have hlen : mus2nus (get16 g UdpHdr.usLength) = 8 + n := by
    rw [hg.get16_eq (by decide) (by decide), hb.length, mus2nus_mus2nus (by omega)]
  rw [accepted_iff hlen hsiz, hg.udpSummed_eq, hg.get16_eq (by decide) (by decide), hb.checksum]

theorem udpSummed_eq_append (f : Frame) (n : Nat) : udpSummed f n = udpSummed f 0 ++ slice f uUdpData n := by
  simp [udpSummed, slice]

theorem fold_udpSummed_pos (hf : f IpHdr.ucProtocol = 17) (n : Nat) : 0 < fold (weigh true (udpSummed f n)) := by
  apply fold_pos
  rw [udpSummed, hf, weigh]
  simp

theorem slice_cons_append (g : Frame) (a : Nat) {k : Nat} (hk : k < n) :
    slice g a n = slice g a k ++ g (a + k) :: slice g (a + k + 1) (n - k - 1) := by
  conv_lhs => rw [show n = k + (1 + (n - k - 1)) by omega, slice_add, slice_add]
  rfl

theorem slice_store_byte (g : Frame) (a : Nat) {k : Nat} (hk : k < n) (b : UInt8) :
    slice (store g (a + k) [b]) a n = slice g a k ++ b :: slice g (a + k + 1) (n - k - 1) := by
  have hself : store g (a + k) [b] (a + k) = b := by
    rw [store_cons, if_pos rfl]
  rw [slice_cons_append _ a hk, hself, slice_store_out g (.inl le_rfl), slice_store_out g (.inr (by simp))]

theorem Built.not_accepted_flipBit {o : Ethernet} {a : Assoc H} {f' : Frame} (hb : Built o a f n f')
    (hn : n ≤ 65507) (hg : SamePacket f' n g) {siz k j : Nat} (hsiz : 42 + n ≤ siz) (hk : k < n) (hj : j < 8) :
    ¬ Accepted (store g (uUdpData + k) [flipBit (g (uUdpData + k)) j]) siz := by
  intro hacc
  have hold := hb.accepted hn hg hsiz
  have hlen : mus2nus (get16 g UdpHdr.usLength) = 8 + n := by
    rw [hg.get16_eq (by decide) (by decide), hb.length, mus2nus_mus2nus (by omega)]
  have hproto : g IpHdr.ucProtocol = 17 := by
    have hhead := hg.udpSummed_eq.trans (hb.summed.trans (udpSummed_filled o a f n))
    exact (List.cons.inj hhead).1
  have hflip := slice_store_byte g uUdpData hk (flipBit (g (uUdpData + k)) j)
  have hout : ∀ {b m : Nat}, b + m ≤ 42 →
      slice (store g (uUdpData + k) [flipBit (g (uUdpData + k)) j]) b m = slice g b m := by
    intro b m hbm
    apply slice_store_out
    simp only [uUdpData]
    omega
  generalize store g (uUdpData + k) [flipBit (g (uUdpData + k)) j] = g' at hacc hflip hout
  have hget : ∀ {b : Nat}, b + 2 ≤ 42 → get16 g' b = get16 g b := by
    intro b hb
    have hs := hout hb
    rw [← toLe16_get16 g] at hs
    rw [get16_of_slice hs, Nat.mod_eq_of_lt (get16_lt g b)]
  have hproto' : g' IpHdr.ucProtocol = 17 := by
    have hs := hout (b := IpHdr.ucProtocol) (m := 1) (by decide)
    simpa [slice, hproto] using hs
  have hhead : udpSummed g' 0 = udpSummed g 0 :=
    udpSummed_eq_of_slices (hout (by decide)) (hout (by decide)) (hout (by decide)) (hout (by decide)) rfl
  rw [accepted_iff (by rw [hget (by decide), hlen]) hsiz, hget (by decide)] at hacc
  rw [accepted_iff hlen hsiz, ← hacc] at hold
  have hfold := complement_inj (fold_udpSummed_pos hproto n) (fold_udpSummed_pos hproto' n) (fold_le _)
    (fold_le _) hold
  rw [udpSummed_eq_append g, udpSummed_eq_append g', hhead, hflip, slice_cons_append g uUdpData hk,
    ← List.append_assoc, ← List.append_assoc] at hfold
  exact fold_flipBit_ne true _ _ _ hj hfold.symm

/-- A packet that the stack sends has the checksum of RFC 768 and a valid IP
header. The stack itself accepts it, but not after a bit of the data has
changed. -/
theorem udp_checksum_detects_bit (o : Ethernet) (uiIpOutputId : Nat) (t : Table H) (f : Frame) (n : Nat)
    (hn : n ≤ 65507) (i : Fin 8) :
    ∃ r id, udpSendPacket o uiIpOutputId t f n (some i) = some (r, id) ∧ r.sizPacket = 28 + n ∧
      slice r.ptPkt uUdpData n = slice f uUdpData n ∧
      getBe16 r.ptPkt UdpHdr.usChecksum =
        rfc768 (toLe32 o.ulIp) (toLe32 (t i).ulRemoteIp) (toLe16 (t i).uiLocalPort)
          (toLe16 (t i).uiRemotePort) (slice f uUdpData n) ∧
      onesSum (words (slice r.ptPkt IpHdr.ucVersion sizeofIpv4Header)) = 0xffff ∧
      ∀ (K : Type) (t' : Table K) (g : Frame) (siz : Nat), SamePacket r.ptPkt n g → 42 + n ≤ siz →
        ((∃ j, (t' j).uiLocalPort = (t i).uiRemotePort % 2 ^ 16) →
          ∃ j, (t' j).uiLocalPort = (t i).uiRemotePort % 2 ^ 16 ∧
            udpProcessPacket t' g siz = (g, some ⟨j, (t' j).pfnRecHandler, g, n, (t' j).pvUser⟩)) ∧
        (∀ k j, k < n → j < 8 →
          (udpProcessPacket t' (store g (uUdpData + k) [flipBit (g (uUdpData + k)) j]) siz).2 = none) ∧
        ∀ g siz, (udpProcessPacket t' g siz).1 = g ∧
          ∀ c, (udpProcessPacket t' g siz).2 = some c → c.pvData = g := by
  obtain ⟨r, id, hsend, hsiz, hb⟩ := built_udpSendPacket o uiIpOutputId t f hn i
  refine ⟨r, id, hsend, hsiz, hb.data, hb.rfc768, hb.header, fun K t' g siz hg hle => ⟨?_, ?_, ?_⟩⟩
  · rintro ⟨j, hj⟩
    have hport : get16 g UdpHdr.usDstPort = (t i).uiRemotePort % 2 ^ 16 := by
      rw [hg.get16_eq (by decide) (by decide), hb.dstPort]
    have hlen : sub32 (mus2nus (get16 g UdpHdr.usLength)) sizeofUdpHeader = n := by
      rw [hg.get16_eq (by decide) (by decide), hb.length, mus2nus_mus2nus (by omega), sizeofUdpHeader,
        sub32_of_le (by omega) (by omega)]
      omega
    obtain ⟨m, hm⟩ := exists_find (p := fun j => (t' j).uiLocalPort == get16 g UdpHdr.usDstPort) (i := j)
      (by simpa [hport] using hj)
    refine ⟨m, by simpa [hport] using find_some hm, ?_⟩
    rw [udpProcessPacket_eq, if_pos (hb.accepted hn hg hle), hm, Option.map_some, handlerCall, hlen]
  · intro k j hk hj
    rw [udpProcessPacket_eq, if_neg (hb.not_accepted_flipBit hn hg hle hk hj)]
  · intro g siz
    rw [udpProcessPacket_eq]
    refine ⟨rfl, fun c hc => ?_⟩
    simp only at hc
    split at hc
    · obtain ⟨j, -, rfl⟩ := Option.map_eq_some_iff.mp hc
      rfl
    · cases hc

def exampleTable : Table Unit := fun _ => ⟨mus2nus 1024, ipAdr 192 168 0 1, mus2nus 1024, (), 0⟩

theorem udp_checksum_detects_bit_three :
    ∃ r id, udpSendPacket exampleEthernet 7 exampleTable (fun x => UInt8.ofNat x) 3 (some 0) = some (r, id) ∧
      (udpProcessPacket exampleTable r.ptPkt 60).2.map (·.sizLength) = some 3 ∧
      (udpProcessPacket exampleTable (store r.ptPkt 43 [flipBit (r.ptPkt 43) 5]) 60).2 = none := by
  obtain ⟨r, id, hsend, -, -, -, -, hrec⟩ :=
    udp_checksum_detects_bit exampleEthernet 7 exampleTable (fun x => UInt8.ofNat x) 3 (by decide) 0
  obtain ⟨hcall, hflip, -⟩ := hrec Unit exampleTable r.ptPkt 60 (fun _ _ _ => rfl) (by decide)
  obtain ⟨j, -, hj⟩ := hcall ⟨0, by decide⟩
  refine ⟨r, id, hsend, ?_, hflip 1 5 (by decide) (by decide)⟩
  rw [hj]
  rfl

end FlashApp.Udp
