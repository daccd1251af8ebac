import FlashApp.Bytes
import Mathlib.Tactic.NormNum

namespace FlashApp.OnesComplement

/-- The sum of two 16-bit numbers with the carry added at the other end. -/
def add16 (a b : Nat) : Nat := (a + b) % 2 ^ 16 + (a + b) / 2 ^ 16

/-- The 16-bit words of a sequence of bytes in network order. An odd byte at
the end is padded with zero. -/
def words : List UInt8 → List Nat
  | [] => []
  | [a] => [a.toNat * 2 ^ 8]
  | a :: b :: bs => (a.toNat * 2 ^ 8 + b.toNat) :: words bs

def onesSum (ws : List Nat) : Nat := ws.foldl add16 0

/-- What a sum of 16-bit numbers becomes when all carries are added back. There
are two zeros: the number 0 is only left if nothing was added, and 0xffff
stands for all other multiples of 0xffff. -/
def fold (t : Nat) : Nat := if t = 0 then 0 else (t - 1) % 0xffff + 1

theorem fold_le (t : Nat) : fold t ≤ 0xffff := by
  unfold fold
  split_ifs <;> omega

theorem fold_pos {t : Nat} (ht : 0 < t) : 0 < fold t := by
  unfold fold
  split_ifs <;> omega

theorem fold_mod (t : Nat) : fold t % 0xffff = t % 0xffff := by
  unfold fold
  split_ifs <;> omega

theorem fold_of_le {t : Nat} (ht : t ≤ 0xffff) : fold t = t := by
  unfold fold
  split_ifs <;> omega

/-- Two sums fold to the same number if they have the same remainder and agree
on being zero. -/
theorem fold_eq_fold {s t : Nat} (h : s % 0xffff = t % 0xffff) (hz : s = 0 ↔ t = 0) :
    fold s = fold t := by
  unfold fold
  split_ifs <;> omega

theorem fold_eq_zero {t : Nat} : fold t = 0 ↔ t = 0 := by
  constructor
  · intro h
    by_contra hne
    have hpos := fold_pos (Nat.pos_of_ne_zero hne)
    omega
  · rintro rfl
    rfl

/-- A part of a sum can be folded first. -/
theorem fold_fold_add (s t : Nat) : fold (fold s + t) = fold (s + t) := by
  apply fold_eq_fold
  · rw [Nat.add_mod, fold_mod, ← Nat.add_mod]
  · rw [Nat.add_eq_zero_iff, fold_eq_zero, Nat.add_eq_zero_iff]

theorem fold_add_fold (s t : Nat) : fold (s + fold t) = fold (s + t) := by
  rw [Nat.add_comm, fold_fold_add, Nat.add_comm]

theorem add16_fold {t d : Nat} (hd : d ≤ 0xffff) : add16 (fold t) d = fold (t + d) := by
  unfold add16 fold
  split_ifs <;> omega

theorem foldl_add16 {ws : List Nat} (hw : ∀ w ∈ ws, w ≤ 0xffff) (t : Nat) :
    ws.foldl add16 (fold t) = fold (t + ws.sum) := by
  induction ws generalizing t with
  | nil => simp
  | cons w ws ih =>
    rw [List.forall_mem_cons] at hw
    rw [List.foldl_cons, add16_fold hw.1, ih hw.2, List.sum_cons, Nat.add_assoc]

theorem onesSum_eq {ws : List Nat} (hw : ∀ w ∈ ws, w ≤ 0xffff) : onesSum ws = fold ws.sum := by
  have h := foldl_add16 hw 0
  rwa [Nat.zero_add, show fold 0 = 0 from rfl] at h

/-- The sum of the bytes, where every other one counts for 256 times its
value, from the first one on or from the second one on. -/
def weigh : Bool → List UInt8 → Nat
  | _, [] => 0
  | hi, b :: bs => b.toNat * (if hi then 2 ^ 8 else 1) + weigh (!hi) bs

theorem words_le (bs : List UInt8) : ∀ w ∈ words bs, w ≤ 0xffff := by
  induction bs using words.induct with
  | case1 => simp [words]
  | case2 a =>
    have ha := a.toNat_lt
    simp only [words, List.mem_singleton, forall_eq]
    omega
  | case3 a b bs ih =>
    have ha := a.toNat_lt
    have hb := b.toNat_lt
    rw [words, List.forall_mem_cons]
    exact ⟨by omega, ih⟩

theorem sum_words (bs : List UInt8) : (words bs).sum = weigh true bs := by
  induction bs using words.induct with
  | case1 => rfl
  | case2 a => simp [words, weigh]
  | case3 a b bs ih =>
    simp only [words, List.sum_cons, ih, weigh, Bool.not_true, Bool.not_false, ↓reduceIte,
      Bool.false_eq_true, Nat.mul_one, Nat.add_assoc]

theorem onesSum_words (bs : List UInt8) : onesSum (words bs) = fold (weigh true bs) := by
  rw [onesSum_eq (words_le bs), sum_words]

theorem weigh_append (hi : Bool) (xs ys : List UInt8) :
    weigh hi (xs ++ ys) = weigh hi xs + weigh (xor hi (xs.length % 2 == 1)) ys := by
  induction xs generalizing hi with
  | nil => simp [weigh]
  | cons x xs ih =>
    have hpar : xor (!hi) (xs.length % 2 == 1) = xor hi ((x :: xs).length % 2 == 1) := by
      rcases Nat.mod_two_eq_zero_or_one xs.length with h | h <;>
        cases hi <;> simp [h, Nat.add_mod]
    rw [List.cons_append, weigh, ih, weigh, hpar, Nat.add_assoc]

theorem weigh_eq_zero_iff (hi : Bool) (bs : List UInt8) : weigh hi bs = 0 ↔ ∀ b ∈ bs, b.toNat = 0 := by
  induction bs generalizing hi with
  | nil => simp [weigh]
  | cons b bs ih =>
    rw [weigh, Nat.add_eq_zero_iff, ih, List.forall_mem_cons]
    cases hi <;> simp

theorem weigh_le (hi : Bool) (bs : List UInt8) : weigh hi bs ≤ 0xff00 * bs.length := by
  induction bs generalizing hi with
  | nil => exact Nat.le_refl 0
  | cons b bs ih =>
    have hb := b.toNat_lt
    have hrest := ih (!hi)
    rw [weigh, List.length_cons]
    split_ifs <;> omega

/-- Reading the words in the other byte order is a multiplication by 256. -/
theorem weigh_not (hi : Bool) (bs : List UInt8) :
    weigh (!hi) bs % 0xffff = 2 ^ 8 * weigh hi bs % 0xffff := by
  induction bs generalizing hi with
  | nil => rfl
  | cons b bs ih =>
    have h := ih (!hi)
    have hb := b.toNat_lt
    cases hi <;> simp only [weigh, Bool.not_true, Bool.not_false, ↓reduceIte,
      Bool.false_eq_true] at h ⊢ <;> omega

def swap16 (n : Nat) : Nat := n % 2 ^ 8 * 2 ^ 8 + n / 2 ^ 8 % 2 ^ 8

theorem swap16_mod {n : Nat} (hn : n ≤ 0xffff) : swap16 n % 0xffff = 2 ^ 8 * n % 0xffff := by
  have h : 2 ^ 8 * n = swap16 n + 0xffff * (n / 2 ^ 8) := by
    unfold swap16
    omega
  rw [h, Nat.add_mul_mod_self_left]

theorem swap16_fold (t : Nat) : swap16 (fold t) = fold (2 ^ 8 * t) := by
  have hle := fold_le t
  have hmod : swap16 (fold t) % 0xffff = 2 ^ 8 * t % 0xffff := by
    rw [swap16_mod hle, Nat.mul_mod, fold_mod, ← Nat.mul_mod]
  have hsle : swap16 (fold t) ≤ 0xffff := by
    unfold swap16
    omega
  rw [← fold_of_le hsle]
  apply fold_eq_fold hmod
  constructor
  · intro h
    by_contra hne
    have hpos := fold_pos (Nat.pos_of_ne_zero (show t ≠ 0 by omega))
    unfold swap16 at h
    omega
  · intro h
    obtain rfl : t = 0 := by omega
    rfl

theorem swap16_swap16_fold (t : Nat) : swap16 (swap16 (fold t)) = fold t := by
  rw [swap16_fold, swap16_fold]
  apply fold_eq_fold <;> omega

theorem swap16_fold_weigh (hi : Bool) (bs : List UInt8) :
    swap16 (fold (weigh hi bs)) = fold (weigh (!hi) bs) := by
  have hle := fold_le (weigh hi bs)
  have hmod : swap16 (fold (weigh hi bs)) % 0xffff = weigh (!hi) bs % 0xffff := by
    rw [swap16_mod hle, weigh_not, Nat.mul_mod, fold_mod, ← Nat.mul_mod]
  have hsle : swap16 (fold (weigh hi bs)) ≤ 0xffff := by
    unfold swap16
    omega
  rw [← fold_of_le hsle]
  apply fold_eq_fold hmod
  rw [weigh_eq_zero_iff, ← weigh_eq_zero_iff hi]
  constructor
  · intro h
    by_contra hne
    have hpos := fold_pos (Nat.pos_of_ne_zero hne)
    unfold swap16 at h
    omega
  · intro h
    rw [h]
    rfl

/-- The complement of a sum, with 0 replaced by the other zero. -/
def complement (s : Nat) : Nat := if s = 0xffff then 0xffff else 0xffff - s

theorem complement_le (s : Nat) : complement s ≤ 0xffff := by
  unfold complement
  split_ifs <;> omega

theorem complement_inj {s t : Nat} (hs : 0 < s) (ht : 0 < t) (hs' : s ≤ 0xffff) (ht' : t ≤ 0xffff)
    (h : complement s = complement t) : s = t := by
  unfold complement at h
  split_ifs at h <;> omega

theorem swap16_complement {s : Nat} (hs : s ≤ 0xffff) : swap16 (complement s) = complement (swap16 s) := by
  unfold complement
  split_ifs with h h' h'
  · decide
  · subst h
    exact absurd rfl h'
  · unfold swap16 at h'
    omega
  · unfold swap16
    omega

/-- A sum with its own complement is the zero that is not 0. -/
theorem fold_add_complement (t : Nat) : fold (t + complement (fold t)) = 0xffff := by
  have hle := fold_le t
  have hmod := fold_mod t
  have hpos : 0 < t + complement (fold t) := by
    obtain rfl | ht := Nat.eq_zero_or_pos t
    · decide
    · exact Nat.add_pos_left ht _
  have hsum : (t + complement (fold t)) % 0xffff = 0xffff % 0xffff := by
    unfold complement
    split_ifs <;> omega
  calc fold (t + complement (fold t))
      = fold 0xffff := fold_eq_fold hsum (by omega)
    _ = 0xffff := rfl

theorem weigh_append_even {xs : List UInt8} (hxs : xs.length % 2 = 0) (hi : Bool) (ys : List UInt8) :
    weigh hi (xs ++ ys) = weigh hi xs + weigh hi ys := by
  rw [weigh_append, hxs]
  simp

def flipBit (b : UInt8) (j : Nat) : UInt8 := b ^^^ UInt8.ofNat (2 ^ j)

theorem xor_two_pow (n j : Nat) : n ^^^ 2 ^ j = n + 2 ^ j ∨ (n ^^^ 2 ^ j) + 2 ^ j = n := by
  induction j generalizing n with
  | zero =>
    have hdiv : (n ^^^ 1) / 2 = n / 2 := by
      simp [Nat.xor_div_two]
    have hmod : (n ^^^ 1) % 2 = (n + 1) % 2 := Nat.xor_mod_two_eq
    rw [Nat.pow_zero]
    omega
  | succ j ih =>
    have hdiv : (n ^^^ 2 ^ (j + 1)) / 2 = n / 2 ^^^ 2 ^ j := by
      rw [Nat.xor_div_two, Nat.pow_succ, Nat.mul_div_cancel _ (by decide)]
    have hmod : (n ^^^ 2 ^ (j + 1)) % 2 = (n + 2 ^ (j + 1)) % 2 := Nat.xor_mod_two_eq
    have hhalf := ih (n / 2)
    rw [Nat.pow_succ] at hdiv hmod ⊢
    omega

theorem toNat_flipBit (b : UInt8) {j : Nat} (hj : j < 8) :
    (flipBit b j).toNat = b.toNat + 2 ^ j ∨ (flipBit b j).toNat + 2 ^ j = b.toNat := by
  have hpow : 2 ^ j < 2 ^ 8 := Nat.pow_lt_pow_right (by decide) hj
  rw [flipBit, UInt8.toNat_xor, UInt8.toNat_ofNat', Nat.mod_eq_of_lt hpow]
  exact xor_two_pow b.toNat j

/-- A single bit makes a difference to the folded sum, as no power of two is a
multiple of 0xffff. -/
theorem fold_flipBit_ne (hi : Bool) (xs ys : List UInt8) (b : UInt8) {j : Nat} (hj : j < 8) :
    fold (weigh hi (xs ++ flipBit b j :: ys)) ≠ fold (weigh hi (xs ++ b :: ys)) := by
  intro h
  have hmod := congrArg (· % 0xffff) h
  simp only [fold_mod, weigh_append, weigh] at hmod
  have hpow : 0 < 2 ^ j ∧ 2 ^ j ≤ 2 ^ 7 := ⟨Nat.two_pow_pos j, Nat.pow_le_pow_right (by decide) (by omega)⟩
  have hflip := toNat_flipBit b hj
  split_ifs at hmod <;> omega

end FlashApp.OnesComplement
