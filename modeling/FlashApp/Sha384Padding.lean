import FlashApp.Sha384
import Mathlib.Order.Bounds.Basic

namespace FlashApp.Sha384

open Bytes

/-- What `sha384_finalize` writes to the data-in register. -/
def sha384Finalize (ulDataSizeDw : Nat) : List DinWrite :=
  let ulPadDw := ulDataSizeDw &&& 0x1f
  let ulPadDw := if ulPadDw < 28 then 29 - ulPadDw else 61 - ulPadDw
  let ullBits := ulDataSizeDw * 32
  .ul 0x00000080 :: List.replicate ulPadDw (.ul 0x00000000) ++
    [.ul (reverse32 ((ullBits >>> 32) &&& 0xffffffff)), .ul (reverse32 (ullBits &&& 0xffffffff))]

def toBe : Nat → Nat → List UInt8
  | 0, _ => []
  | k + 1, n => toBe k (n / 2 ^ 8) ++ [UInt8.ofNat n]

/-- The padding of a message of `n` bytes, as FIPS 180-4 asks for it with blocks
of 1024 bits: a one bit, as few zeros as possible, and the number of message
bits as a number of 128 bits, so that the blocks are full. -/
def IsPadding (n : Nat) (p : List UInt8) : Prop :=
  ∃ z, p = 0x80 :: (List.replicate z 0 ++ toBe 16 (8 * n)) ∧
    IsLeast {z | 128 ∣ n + (1 + z + 16)} z

@[simp] theorem length_toBe (k n : Nat) : (toBe k n).length = k := by
  induction k generalizing n with
  | zero => rfl
  | succ k ih => simp [toBe, ih]

theorem toBe_zero (k : Nat) : toBe k 0 = List.replicate k 0 := by
  induction k with
  | zero => rfl
  | succ k ih =>
    rw [List.replicate_succ', ← ih]
    simp [toBe]

theorem toBe_add (i j n : Nat) : toBe (i + j) n = toBe i (n / 2 ^ (8 * j)) ++ toBe j n := by
  induction j generalizing n with
  | zero => simp [toBe]
  | succ j ih =>
    have hpow : 2 ^ (8 * (j + 1)) = 2 ^ 8 * 2 ^ (8 * j) := by ring
    rw [← Nat.add_assoc, toBe, ih, toBe, Nat.div_div_eq_div_mul, ← hpow, List.append_assoc]

theorem toBe_of_lt {i j n : Nat} (hn : n < 2 ^ (8 * j)) :
    toBe (i + j) n = List.replicate i 0 ++ toBe j n := by
  rw [toBe_add, Nat.div_eq_of_lt hn, toBe_zero]

theorem isPadding_dvd {n : Nat} {p : List UInt8} (h : IsPadding n p) : 128 ∣ n + p.length := by
  obtain ⟨z, rfl, hz, -⟩ := h
  have hlen : (0x80 :: (List.replicate z 0 ++ toBe 16 (8 * n)) : List UInt8).length = 1 + z + 16 := by
    simp only [List.length_cons, List.length_append, List.length_replicate, length_toBe]
    omega
  rwa [hlen]

theorem and_byte (n k : Nat) : n &&& 0xff <<< k = (n / 2 ^ k % 2 ^ 8) <<< k := by
  apply Nat.eq_of_testBit_eq
  intro i
  have hmask : (0xff : Nat).testBit (i - k) = decide (i - k < 8) :=
    Nat.testBit_two_pow_sub_one 8 (i - k)
  rw [Nat.testBit_and, Nat.testBit_shiftLeft, Nat.testBit_shiftLeft, Nat.testBit_mod_two_pow,
    Nat.testBit_div_two_pow, hmask]
  by_cases hi : k ≤ i
  · simp only [hi, decide_true, Bool.true_and, Nat.sub_add_cancel hi]
    rw [Bool.and_comm]
  · simp [hi]


theorem reverse32_eq (n : Nat) :
    reverse32 n = le32 (UInt8.ofNat (n / 2 ^ 24)) (UInt8.ofNat (n / 2 ^ 16))
      (UInt8.ofNat (n / 2 ^ 8)) (UInt8.ofNat n) := by
  have h0 : (n &&& 0x000000ff) <<< 24 = (n % 2 ^ 8) <<< 24 := by
    simpa using congrArg (· <<< 24) (and_byte n 0)
  have h1 : (n &&& 0x0000ff00) <<< 8 = (n / 2 ^ 8 % 2 ^ 8) <<< 16 := by
    rw [show (0x0000ff00 : Nat) = 0xff <<< 8 from rfl, and_byte, ← Nat.shiftLeft_add]
  have h2 : (n &&& 0x00ff0000) >>> 8 = (n / 2 ^ 16 % 2 ^ 8) <<< 8 := by
    rw [show (0x00ff0000 : Nat) = 0xff <<< 16 from rfl, and_byte, Nat.shiftLeft_add _ 8 8,
      Nat.shiftLeft_shiftRight]
  have h3 : (n &&& 0xff000000) >>> 24 = n / 2 ^ 24 % 2 ^ 8 := by
    rw [show (0xff000000 : Nat) = 0xff <<< 24 from rfl, and_byte, Nat.shiftLeft_shiftRight]
  have hrev : ∀ a b c d : Nat, a ||| b ||| c ||| d = d ||| c ||| b ||| a := by
    intro a b c d
    ac_rfl
  rw [reverse32, h0, h1, h2, h3, hrev, le32, UInt8.toNat_ofNat', UInt8.toNat_ofNat', UInt8.toNat_ofNat',
    UInt8.toNat_ofNat']

theorem toLe32_reverse32 (n : Nat) : toLe32 (reverse32 (n &&& 0xffffffff)) = toBe 4 n := by
  rw [reverse32_eq, toLe32_le32, Nat.and_two_pow_sub_one_eq_mod n 32]
  simp only [toBe, List.nil_append, List.cons_append, List.cons.injEq, and_true, ← UInt8.toNat_inj,
    UInt8.toNat_ofNat']
  omega

theorem dinBytes_bits (ullBits : Nat) :
    dinBytes [.ul (reverse32 ((ullBits >>> 32) &&& 0xffffffff)), .ul (reverse32 (ullBits &&& 0xffffffff))] =
      toBe 8 ullBits := by
  have hsplit := toBe_add 4 4 ullBits
  rw [hsplit, ← toLe32_reverse32, ← toLe32_reverse32 ullBits, Nat.shiftRight_eq_div_pow]
  simp [dinBytes, DinWrite.bytes]

theorem dinBytes_cons (w : DinWrite) (ws : List DinWrite) :
    dinBytes (w :: ws) = w.bytes ++ dinBytes ws := rfl

theorem dinBytes_zeros {w : DinWrite} {m : Nat} (hw : w.bytes = List.replicate m 0) (k : Nat) :
    dinBytes (List.replicate k w) = List.replicate (k * m) 0 := by
  induction k with
  | zero => simp [dinBytes]
  | succ k ih =>
    have hk : (k + 1) * m = m + k * m := by ring
    rw [List.replicate_succ, dinBytes_cons, ih, hw, hk, List.replicate_add]

def padBytes (r : Nat) : Nat := if r < 112 then 119 - r else 247 - r

theorem dinBytes_finalizeByte (n : Nat) :
    dinBytes (sha384FinalizeByte n) =
      0x80 :: (List.replicate (padBytes (n % 128)) 0 ++ toBe 8 (n * 8)) := by
  have hmod : n &&& 0x7f = n % 128 := Nat.and_two_pow_sub_one_eq_mod n 7
  rw [sha384FinalizeByte, hmod, dinBytes_append, dinBytes_bits, dinBytes_cons,
    dinBytes_zeros (m := 1) rfl, Nat.mul_one]
  rfl

theorem dinBytes_finalize (d : Nat) :
    dinBytes (sha384Finalize d) =
      0x80 :: (List.replicate (padBytes (4 * d % 128)) 0 ++ toBe 8 (4 * d * 8)) := by
  have hmod : d &&& 0x1f = d % 32 := Nat.and_two_pow_sub_one_eq_mod d 5
  have hbits : 4 * d * 8 = d * 32 := by omega
  have hpad : padBytes (4 * d % 128) = 3 + (if d % 32 < 28 then 29 - d % 32 else 61 - d % 32) * 4 := by
    simp only [padBytes]
    split_ifs <;> omega
  rw [sha384Finalize, hmod, dinBytes_append, dinBytes_bits, dinBytes_cons,
    dinBytes_zeros (m := 4) rfl, hbits, hpad, List.replicate_add]
  rfl

theorem isLeast_padBytes (n : Nat) :
    IsLeast {z | 128 ∣ n + (1 + z + 16)} (padBytes (n % 128) - 8) := by
  have hp : padBytes (n % 128) = if n % 128 < 112 then 119 - n % 128 else 247 - n % 128 := rfl
  constructor
  · simp only [Set.mem_ofPred_eq, hp]
    split_ifs <;> omega
  · intro z hz
    simp only [Set.mem_ofPred_eq] at hz
    rw [hp]
    split_ifs <;> omega

theorem isPadding_finalizeByte {n : Nat} (hn : n < 2 ^ 32) :
    IsPadding n (dinBytes (sha384FinalizeByte n)) := by
  refine ⟨padBytes (n % 128) - 8, ?_, isLeast_padBytes n⟩
  have h8 : padBytes (n % 128) = padBytes (n % 128) - 8 + 8 := by
    have := Nat.mod_lt n (y := 128) (by decide)
    simp only [padBytes]
    split_ifs <;> omega
  have hbits : 8 * n < 2 ^ (8 * 8) := by omega
  rw [dinBytes_finalizeByte, toBe_of_lt (i := 8) hbits, h8, List.replicate_add, Nat.mul_comm n 8,
    List.append_assoc, Nat.add_sub_cancel]

/-- The bytes of `sha384_finalize_byte` are the padding of the message, and
counting in DWORDs gives the same ones. -/
theorem sha384_finalize_pads :
    (∀ n, n < 2 ^ 32 →
      IsPadding n (dinBytes (sha384FinalizeByte n)) ∧
        128 ∣ n + (dinBytes (sha384FinalizeByte n)).length) ∧
    ∀ d, 4 * d < 2 ^ 32 → dinBytes (sha384Finalize d) = dinBytes (sha384FinalizeByte (4 * d)) := by
  constructor
  · intro n hn
    have h := isPadding_finalizeByte hn
    exact ⟨h, isPadding_dvd h⟩
  · intro d _
    rw [dinBytes_finalize, dinBytes_finalizeByte]

/-- A full last block, and a bit length above 32 bits. -/
theorem sha384_finalize_pads_large :
    IsPadding 0x2000007f (dinBytes (sha384FinalizeByte 0x2000007f)) ∧
      dinBytes (sha384Finalize 0x0800001f) = dinBytes (sha384FinalizeByte 0x2000007c) :=
  ⟨(sha384_finalize_pads.1 0x2000007f (by decide)).1, sha384_finalize_pads.2 0x0800001f (by decide)⟩

end FlashApp.Sha384
