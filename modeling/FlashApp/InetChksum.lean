import FlashApp.Lwip
import FlashApp.UdpChecksum

namespace FlashApp.InetChksum

open Bytes Eth Lwip OnesComplement Udp

def foldU32t (u : Nat) : Nat := add32 (u >>> 16) (u &&& 0xffff)

def swapBytesInWord (w : Nat) : Nat := ((w &&& 0xff) <<< 8) ||| ((w &&& 0xff00) >>> 8)

def addWords (m : Memory) : Nat → Nat → Nat → Nat
  | n + 2, ps, sum => addWords m n (ps + 2) (add32 sum (get16 m ps))
  | _, _, sum => sum

/-- The checksum of an aligned buffer with the byte `ucEnd` from in front of it
as the high end byte. -/
def addAligned (m : Memory) (pb len : Nat) (ucEnd : UInt8) : Nat :=
  let sum := addWords m len pb 0
  let ucLast := if len % 2 = 1 then m (pb + (len - 1)) else 0
  let t := ucLast.toNat + 2 ^ 8 * ucEnd.toNat
  foldU32t (foldU32t (add32 sum t))

/-- The sum in host order, not inverted. The bytes are added two at a time from
an even address on, and the sum is swapped if the first address was odd. -/
def lwipStandardChksum (m : Memory) (dataptr len : Nat) : Nat :=
  if dataptr % 2 = 1 then
    swapBytesInWord
      (if 0 < len then addAligned m (dataptr + 1) (len - 1) (m dataptr) else addAligned m dataptr len 0)
  else addAligned m dataptr len 0

def addChain (m : Memory) : List Pbuf → Nat → Bool → Nat × Bool
  | [], acc, swapped => (acc, swapped)
  | q :: qs, acc, swapped =>
    let acc := foldU32t (add32 acc (lwipStandardChksum m q.payload q.len))
    if q.len % 2 ≠ 0 then addChain m qs (swapBytesInWord acc) (!swapped) else addChain m qs acc swapped

/-- The sum over a chain behind the sum `acc`, in host order. -/
def sumChain (m : Memory) (p : List Pbuf) (acc : Nat) : Nat :=
  let q := addChain m p acc false
  if q.2 then swapBytesInWord q.1 else q.1

def inetChksumPbuf (m : Memory) (p : List Pbuf) : Nat := (sumChain m p 0 &&& 0xffff) ^^^ 0xffff

def inetCksumPseudoBase (m : Memory) (p : List Pbuf) (proto protoLen acc : Nat) : Nat :=
  let acc := sumChain m p acc
  let acc := add32 acc (swapBytesInWord proto)
  let acc := add32 acc (swapBytesInWord protoLen)
  (foldU32t (foldU32t acc) &&& 0xffff) ^^^ 0xffff

/-- The addresses are in network byte order, so their first byte is the low
one. -/
def inetChksumPseudo (m : Memory) (p : List Pbuf) (proto protoLen src dest : Nat) : Nat :=
  let acc := src &&& 0xffff
  let acc := add32 acc ((src >>> 16) &&& 0xffff)
  let acc := add32 acc (dest &&& 0xffff)
  let acc := add32 acc ((dest >>> 16) &&& 0xffff)
  inetCksumPseudoBase m p proto protoLen (foldU32t (foldU32t acc))

variable {m : Memory} {len t : Nat}

theorem add32_add32_of_lt {a b c : Nat} (h : a + b + c < 2 ^ 32) : add32 (add32 a b) c = a + b + c := by
  rw [add32_of_lt (show a + b < 2 ^ 32 by omega), add32_of_lt h]

theorem swapBytesInWord_eq (w : Nat) : swapBytesInWord w = swap16 w := by
  have hhi : (w &&& 0xff00) >>> 8 = (w >>> 8) &&& 0xff := by
    rw [Nat.shiftRight_and_distrib, show 0xff00 >>> 8 = 0xff from rfl]
  rw [swapBytesInWord, hhi, swap16]
  exact mus2nus_eq w

theorem foldU32t_eq {u : Nat} (hu : u < 2 ^ 32) : foldU32t u = u / 2 ^ 16 + u % 2 ^ 16 := by
  have hlo : u &&& 0xffff = u % 2 ^ 16 := Nat.and_two_pow_sub_one_eq_mod u 16
  rw [foldU32t, hlo, Nat.shiftRight_eq_div_pow]
  exact add32_of_lt (by omega)

theorem foldU32t_once {u : Nat} (hu : u ≤ 0x1fffe) : foldU32t u = fold u := by
  rw [foldU32t_eq (by omega)]
  unfold fold
  split_ifs <;> omega

theorem foldU32t_twice {u : Nat} (hu : u < 2 ^ 32) : foldU32t (foldU32t u) = fold u := by
  have hfirst := foldU32t_eq hu
  rw [foldU32t_once (by omega), hfirst]
  apply fold_eq_fold
  · omega
  · omega

theorem addWords_eq (m : Memory) (len ps sum : Nat) (h : sum + 0xffff * (len / 2) < 2 ^ 32) :
    addWords m len ps sum = sum + weigh false (slice m ps (len - len % 2)) := by
  induction len, ps, sum using addWords.induct m with
  | case1 n ps sum ih =>
    have hword := get16_lt m ps
    have hadd : add32 sum (get16 m ps) = sum + get16 m ps := add32_of_lt (by omega)
    have hsub : n + 2 - (n + 2) % 2 = n - n % 2 + 1 + 1 := by omega
    rw [addWords, ih (by rw [hadd]; omega), hadd, hsub]
    simp only [slice, weigh, Bool.not_false, Bool.not_true, ↓reduceIte, Bool.false_eq_true, get16,
      Nat.add_assoc, Nat.reduceAdd]
    omega
  | case2 len ps sum hlen =>
    have hsub : len - len % 2 = 0 := by
      rcases len with _ | _ | n
      · rfl
      · rfl
      · exact absurd rfl (hlen n)
    rw [hsub, addWords]
    · rfl
    · exact hlen

/-- The end byte in front of the buffer counts as a high byte. -/
theorem addAligned_eq (m : Memory) (pb : Nat) (ucEnd : UInt8) (hlen : len < 2 ^ 16) :
    addAligned m pb len ucEnd = fold (2 ^ 8 * ucEnd.toNat + weigh false (slice m pb len)) := by
  have hend := ucEnd.toNat_lt
  have hwords := addWords_eq m len pb 0 (by omega)
  rw [Nat.zero_add] at hwords
  have hweigh : weigh false (slice m pb len) = weigh false (slice m pb (len - len % 2)) +
      (if len % 2 = 1 then m (pb + (len - 1)) else 0).toNat := by
    obtain hpar | hpar := Nat.mod_two_eq_zero_or_one len
    · rw [hpar, if_neg (by decide)]
      rfl
    · have hsplit : len = (len - 1) + 1 := by omega
      rw [hpar, if_pos rfl]
      conv_lhs => rw [hsplit]
      rw [slice_add, weigh_append_even (by rw [length_slice]; omega)]
      simp [slice, weigh]
  have hbound := weigh_le false (slice m pb len)
  rw [length_slice] at hbound
  simp only [addAligned, hwords]
  rw [add32_of_lt (by omega), foldU32t_twice (by omega)]
  congr 1
  omega

theorem lwipStandardChksum_eq (m : Memory) (dataptr : Nat) (hlen : len < 2 ^ 16) :
    lwipStandardChksum m dataptr len = fold (weigh false (slice m dataptr len)) := by
  rw [lwipStandardChksum]
  split_ifs with hodd hpos
  · obtain ⟨n, rfl⟩ : ∃ n, len = n + 1 := ⟨len - 1, by omega⟩
    have hall : weigh true (slice m dataptr (n + 1)) =
        2 ^ 8 * (m dataptr).toNat + weigh false (slice m (dataptr + 1) n) := by
      rw [slice, weigh, if_pos rfl, Nat.mul_comm]
      rfl
    rw [Nat.add_sub_cancel, addAligned_eq m _ _ (by omega), swapBytesInWord_eq, ← hall, swap16_fold_weigh]
    rfl
  · obtain rfl : len = 0 := by omega
    rw [addAligned_eq m _ _ hlen, swapBytesInWord_eq]
    simp [slice, weigh, fold, swap16]
  · rw [addAligned_eq m _ _ hlen]
    simp

/-- The state of the loop over a chain: the sum so far is swapped as long as an
odd number of bytes is added. -/
def Summed (t : Nat) (bs : List UInt8) (acc : Nat) (swapped : Bool) : Prop :=
  swapped = (bs.length % 2 == 1) ∧
    acc = if swapped then swap16 (fold (t + weigh false bs)) else fold (t + weigh false bs)

theorem weigh_behind_odd (cs : List UInt8) : fold (t + weigh false cs) = fold (t + 2 ^ 8 * weigh true cs) := by
  have hnot := weigh_not true cs
  rw [Bool.not_true] at hnot
  apply fold_eq_fold
  · rw [Nat.add_mod, hnot, ← Nat.add_mod]
  · have hz : weigh false cs = 0 ↔ weigh true cs = 0 := by
      rw [weigh_eq_zero_iff, weigh_eq_zero_iff]
    omega

theorem Summed.add {bs : List UInt8} {acc : Nat} {swapped : Bool} (h : Summed t bs acc swapped)
    (cs : List UInt8) :
    fold (acc + fold (weigh false cs)) =
      if swapped then swap16 (fold (t + weigh false (bs ++ cs))) else fold (t + weigh false (bs ++ cs)) := by
  obtain ⟨hpar, rfl⟩ := h
  rw [weigh_append, ← hpar]
  cases swapped with
  | false =>
    rw [if_neg Bool.false_ne_true, if_neg Bool.false_ne_true, fold_fold_add, fold_add_fold, Bool.xor_false,
      Nat.add_assoc]
  | true =>
    rw [if_pos rfl, if_pos rfl, swap16_fold, swap16_fold, fold_fold_add, fold_add_fold, weigh_behind_odd, ← Nat.mul_add,
      Nat.add_assoc]
    rfl

theorem Summed.step {bs : List UInt8} {acc : Nat} {swapped : Bool} (h : Summed t bs acc swapped) (q : Pbuf) :
    Summed t (bs ++ slice m q.payload q.len)
      (if q.len % 2 ≠ 0 then swapBytesInWord (foldU32t (add32 acc (lwipStandardChksum m q.payload q.len)))
        else foldU32t (add32 acc (lwipStandardChksum m q.payload q.len)))
      (if q.len % 2 ≠ 0 then !swapped else swapped) := by
  have hle : acc ≤ 0xffff := by
    rw [h.2]
    split_ifs
    · rw [swap16_fold]
      exact fold_le _
    · exact fold_le _
  have hle' := fold_le (weigh false (slice m q.payload q.len))
  have hpar := h.1
  rw [lwipStandardChksum_eq m _ q.len_lt, add32_of_lt (by omega), foldU32t_once (by omega), h.add,
    swapBytesInWord_eq]
  refine ⟨?_, ?_⟩
  · rw [List.length_append, length_slice, hpar]
    obtain hb | hb := Nat.mod_two_eq_zero_or_one bs.length <;>
      obtain hq | hq := Nat.mod_two_eq_zero_or_one q.len <;> simp [hb, hq, Nat.add_mod]
  · by_cases hq : q.len % 2 ≠ 0
    · rw [if_pos hq, if_pos hq]
      cases swapped with
      | false => rfl
      | true => exact swap16_swap16_fold _
    · rw [if_neg hq, if_neg hq]

theorem summed_addChain (qs : List Pbuf) {bs : List UInt8} {acc : Nat} {swapped : Bool}
    (h : Summed t bs acc swapped) :
    Summed t (bs ++ payload m qs) (addChain m qs acc swapped).1 (addChain m qs acc swapped).2 := by
  induction qs generalizing bs acc swapped with
  | nil =>
    rw [payload, List.flatMap_nil, List.append_nil]
    exact h
  | cons q qs ih =>
    have hstep := h.step (m := m) q
    rw [payload, List.flatMap_cons, ← List.append_assoc, addChain]
    by_cases hq : q.len % 2 ≠ 0
    · rw [if_pos hq, if_pos hq] at hstep
      simp only [if_pos hq]
      exact ih hstep
    · rw [if_neg hq, if_neg hq] at hstep
      simp only [if_neg hq]
      exact ih hstep

theorem sumChain_eq (m : Memory) (p : List Pbuf) (t : Nat) :
    sumChain m p (fold t) = fold (t + weigh false (payload m p)) := by
  have hstart : Summed t [] (fold t) false := ⟨rfl, by simp [weigh]⟩
  obtain ⟨-, hacc⟩ := summed_addChain (m := m) p hstart
  rw [List.nil_append] at hacc
  simp only [sumChain]
  rw [hacc, swapBytesInWord_eq]
  split_ifs
  · exact swap16_swap16_fold _
  · rfl

/-- The checksum of RFC 1071 as a number. -/
def rfc1071 (bs : List UInt8) : Nat := 0xffff - onesSum (words bs)

/-- The pseudo header as it would be transmitted. -/
def pseudoHeader (proto : UInt8) (protoLen : UInt16) (src dest : UInt32) : List UInt8 :=
  toLe32 src.toNat ++ (toLe32 dest.toNat ++ (0 :: proto :: toBe16 protoLen.toNat))

theorem toLe16_complement (bs : List UInt8) :
    toLe16 (0xffff - fold (weigh false bs)) = toBe16 (rfc1071 bs) := by
  have hle := fold_le (weigh true bs)
  have hswap := swap16_fold_weigh true bs
  rw [← toLe16_mus2nus, mus2nus_eq, rfc1071, onesSum_words]
  congr 1
  rw [Bool.not_true] at hswap
  rw [← hswap]
  unfold swap16
  omega

theorem complement_and {t : Nat} (ht : t ≤ 0xffff) : (t &&& 0xffff) ^^^ 0xffff = 0xffff - t := by
  rw [Nat.and_two_pow_sub_one_eq_mod t 16, Nat.mod_eq_of_lt (by omega)]
  exact xor_ffff ht

theorem inetChksumPbuf_eq (m : Memory) (p : List Pbuf) :
    inetChksumPbuf m p = 0xffff - fold (weigh false (payload m p)) := by
  have hsum := sumChain_eq m p 0
  rw [show fold 0 = 0 from rfl, Nat.zero_add] at hsum
  rw [inetChksumPbuf, hsum, complement_and (fold_le _)]

theorem weigh_toLe32 {n : Nat} (hn : n < 2 ^ 32) :
    weigh false (toLe32 n) = (n &&& 0xffff) + ((n >>> 16) &&& 0xffff) := by
  rw [Nat.and_two_pow_sub_one_eq_mod n 16, Nat.and_two_pow_sub_one_eq_mod _ 16, Nat.shiftRight_eq_div_pow]
  simp only [toLe32, weigh, Bool.not_false, Bool.not_true, ↓reduceIte, Bool.false_eq_true, UInt8.toNat_ofNat']
  omega

theorem weigh_toBe16_low (n : Nat) : weigh false (toBe16 n) = swapBytesInWord n := by
  rw [swapBytesInWord_eq, swap16]
  simp only [toBe16, weigh, Bool.not_false, ↓reduceIte, Bool.false_eq_true, UInt8.toNat_ofNat']
  omega

theorem swapBytesInWord_le (w : Nat) : swapBytesInWord w ≤ 0xffff := by
  rw [swapBytesInWord_eq, swap16]
  omega

theorem weigh_pseudoHeader_append (proto : UInt8) (protoLen : UInt16) (src dest : UInt32) (bs : List UInt8) :
    weigh false (pseudoHeader proto protoLen src dest ++ bs) =
      weigh false (toLe32 src.toNat) + weigh false (toLe32 dest.toNat) + weigh false bs +
        swapBytesInWord proto.toNat + swapBytesInWord protoLen.toNat := by
  have hproto := proto.toNat_lt
  have hzero : weigh false [0, proto] = swapBytesInWord proto.toNat := by
    rw [swapBytesInWord_eq, swap16]
    simp only [weigh, Bool.not_false, ↓reduceIte, Bool.false_eq_true, UInt8.toNat_zero]
    omega
  have hcons : (0 :: proto :: toBe16 protoLen.toNat) ++ bs = [0, proto] ++ (toBe16 protoLen.toNat ++ bs) := rfl
  have hle : ∀ n, (toLe32 n).length % 2 = 0 := fun n => by rw [length_toLe32]
  have hbe : (toBe16 protoLen.toNat).length % 2 = 0 := by rw [length_toBe16]
  have htwo : [0, proto].length % 2 = 0 := by rw [List.length_cons, List.length_singleton]
  rw [pseudoHeader, List.append_assoc, List.append_assoc, hcons, weigh_append_even (hle _),
    weigh_append_even (hle _), weigh_append_even htwo, weigh_append_even hbe, hzero, weigh_toBe16_low]
  omega

theorem inetChksumPseudo_eq (m : Memory) (p : List Pbuf) (proto : UInt8) (protoLen : UInt16) (src dest : UInt32) :
    inetChksumPseudo m p proto.toNat protoLen.toNat src.toNat dest.toNat =
      0xffff - fold (weigh false (pseudoHeader proto protoLen src dest ++ payload m p)) := by
  have hlow : ∀ n : Nat, n &&& 0xffff ≤ 0xffff := fun n => Nat.and_le_right
  have hs := hlow src.toNat
  have hs' := hlow (src.toNat >>> 16)
  have hd := hlow dest.toNat
  have hd' := hlow (dest.toNat >>> 16)
  have hproto := swapBytesInWord_le proto.toNat
  have hlen := swapBytesInWord_le protoLen.toNat
  have hadr : add32 (add32 (add32 (src.toNat &&& 0xffff) ((src.toNat >>> 16) &&& 0xffff)) (dest.toNat &&& 0xffff))
      ((dest.toNat >>> 16) &&& 0xffff) = weigh false (toLe32 src.toNat) + weigh false (toLe32 dest.toNat) := by
    rw [weigh_toLe32 src.toNat_lt, weigh_toLe32 dest.toNat_lt]
    unfold add32
    omega
  have hsum := fold_le (weigh false (toLe32 src.toNat) + weigh false (toLe32 dest.toNat) + weigh false (payload m p))
  have hadrlt : weigh false (toLe32 src.toNat) + weigh false (toLe32 dest.toNat) < 2 ^ 32 := by
    rw [← hadr]
    exact add32_lt _ _
  simp only [inetChksumPseudo, inetCksumPseudoBase, hadr]
  rw [foldU32t_twice hadrlt, sumChain_eq, add32_add32_of_lt (by omega), foldU32t_twice (by omega),
    complement_and (fold_le _), weigh_pseudoHeader_append, Nat.add_assoc (fold _), fold_fold_add, ← Nat.add_assoc]

/-- Whatever elements a chain has and wherever they are in memory, the result
is the checksum of its bytes, in the order in which it is transmitted. -/
theorem inet_chksum_of_chain (m : Memory) (p : List Pbuf) (proto : UInt8) (protoLen : UInt16) (src dest : UInt32) :
    toLe16 (inetChksumPbuf m p) = toBe16 (rfc1071 (payload m p)) ∧
      toLe16 (inetChksumPseudo m p proto.toNat protoLen.toNat src.toNat dest.toNat) =
        toBe16 (rfc1071 (pseudoHeader proto protoLen src dest ++ payload m p)) := by
  rw [inetChksumPbuf_eq, inetChksumPseudo_eq, toLe16_complement, toLe16_complement]
  exact ⟨rfl, rfl⟩

theorem fold_add_sub_fold (t : Nat) : fold (t + (0xffff - fold t)) = 0xffff := by
  have hle := fold_le t
  have hmod := fold_mod t
  have hzero := @fold_eq_zero t
  calc fold (t + (0xffff - fold t))
      = fold 0xffff := fold_eq_fold (by omega) (by omega)
    _ = 0xffff := rfl

theorem weigh_toLe16 {c : Nat} (hc : c ≤ 0xffff) : weigh false (toLe16 c) = c := by
  simp only [toLe16, weigh, Bool.not_false, ↓reduceIte, Bool.false_eq_true, UInt8.toNat_ofNat']
  omega

/-- With its checksum filled in, a segment sums up to the zero that is not 0. -/
theorem fold_weigh_filled {hs xs : List UInt8} (hhs : hs.length % 2 = 0) (hxs : xs.length % 2 = 0)
    (ys : List UInt8) :
    fold (weigh false (hs ++ (xs ++
      (toLe16 (0xffff - fold (weigh false (hs ++ (xs ++ ([0, 0] ++ ys))))) ++ ys)))) = 0xffff := by
  have hle := fold_le (weigh false (hs ++ (xs ++ ([0, 0] ++ ys))))
  have hzero : [(0 : UInt8), 0].length % 2 = 0 := rfl
  have hsum := fold_add_sub_fold (weigh false (hs ++ (xs ++ ([0, 0] ++ ys))))
  generalize hc : 0xffff - fold (weigh false (hs ++ (xs ++ ([0, 0] ++ ys)))) = c at hsum ⊢
  have htwo : (toLe16 c).length % 2 = 0 := by rw [length_toLe16]
  rw [weigh_append_even hhs, weigh_append_even hxs, weigh_append_even hzero] at hsum
  rw [weigh_append_even hhs, weigh_append_even hxs, weigh_append_even htwo, weigh_toLe16 (by omega), ← hsum]
  congr 1
  simp only [weigh, UInt8.toNat_zero]
  omega

theorem length_pseudoHeader (proto : UInt8) (protoLen : UInt16) (src dest : UInt32) :
    (pseudoHeader proto protoLen src dest).length % 2 = 0 := by
  simp only [pseudoHeader, List.length_append, List.length_cons, length_toLe32, length_toBe16]

/-- A segment with the checksum that the sender has computed over its own chain
is accepted, however it is cut on the way. With any single bit changed it is
not. -/
theorem inet_chksum_accepts {m m' : Memory} {p q : List Pbuf} {xs ys : List UInt8} {proto : UInt8}
    {protoLen : UInt16} {src dest : UInt32} {c : Nat} (hxs : xs.length % 2 = 0)
    (hsent : payload m p = xs ++ ([0, 0] ++ ys))
    (hc : c = inetChksumPseudo m p proto.toNat protoLen.toNat src.toNat dest.toNat) :
    (payload m' q = xs ++ (toLe16 c ++ ys) →
        inetChksumPseudo m' q proto.toNat protoLen.toNat src.toNat dest.toNat = 0) ∧
      ∀ us b vs j, j < 8 → xs ++ (toLe16 c ++ ys) = us ++ b :: vs → payload m' q = us ++ flipBit b j :: vs →
        inetChksumPseudo m' q proto.toNat protoLen.toNat src.toNat dest.toNat ≠ 0 := by
  have hfilled := fold_weigh_filled (length_pseudoHeader proto protoLen src dest) hxs ys
  rw [inetChksumPseudo_eq, hsent] at hc
  rw [← hc] at hfilled
  rw [inetChksumPseudo_eq]
  constructor
  · intro hq
    rw [hq, hfilled]
  · intro us b vs j hj hsplit hq
    have hflip := fold_flipBit_ne false (pseudoHeader proto protoLen src dest ++ us) vs b hj
    have hle := fold_le (weigh false (pseudoHeader proto protoLen src dest ++ us ++ flipBit b j :: vs))
    rw [hsplit, ← List.append_assoc] at hfilled
    rw [hfilled] at hflip
    rw [hq, ← List.append_assoc]
    omega

def exampleSegment : Memory := store (fun _ => 0) 101 [0x12, 0x34, 0, 0]

def exampleChain : List Pbuf := [⟨101, 4, by decide, by decide⟩]

theorem one_lt_pbuf : 1 < 2 ^ 16 := by decide

def exampleCut : List Pbuf := [⟨200, 1, one_lt_pbuf, by decide⟩, ⟨201, 3, by decide, by decide⟩]

theorem inet_chksum_accepts_exampleCut :
    inetChksumPseudo (store (fun _ => 0) 200 ([0x12, 0x34] ++ (toLe16 (inetChksumPseudo exampleSegment exampleChain
      (6 : UInt8).toNat (4 : UInt16).toNat (1 : UInt32).toNat (2 : UInt32).toNat) ++ []))) exampleCut
      (6 : UInt8).toNat (4 : UInt16).toNat (1 : UInt32).toNat (2 : UInt32).toNat = 0 := by
  have hsent : payload exampleSegment exampleChain = [0x12, 0x34] ++ ([0, 0] ++ []) := rfl
  apply (inet_chksum_accepts rfl hsent rfl).1
  rfl

end FlashApp.InetChksum
