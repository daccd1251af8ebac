import Mathlib.Data.List.Basic
import Mathlib.Data.Nat.Bitwise
import Mathlib.Tactic.Ring

namespace FlashApp.Bytes

abbrev Memory := Nat → UInt8

/-- The sum of two 32-bit numbers as the machine computes it. -/
def add32 (a b : Nat) : Nat := (a + b) % 2 ^ 32

def sub32 (a b : Nat) : Nat := (a + 2 ^ 32 - b) % 2 ^ 32

theorem add32_lt (a b : Nat) : add32 a b < 2 ^ 32 := Nat.mod_lt _ (by decide)

theorem add32_of_lt {a b : Nat} (h : a + b < 2 ^ 32) : add32 a b = a + b := Nat.mod_eq_of_lt h

theorem add32_zero {a : Nat} (ha : a < 2 ^ 32) : add32 a 0 = a := Nat.mod_eq_of_lt ha

theorem add32_add32_one (a i : Nat) : add32 (add32 a 1) i = add32 a (i + 1) := by
  unfold add32
  omega

theorem add32_of_ge {a b : Nat} (ha : a < 2 ^ 32) (hb : b < 2 ^ 32) (h : 2 ^ 32 ≤ a + b) :
    add32 a b = a + b - 2 ^ 32 := by
  unfold add32
  omega

theorem sub32_of_le {a b : Nat} (hab : b ≤ a) (ha : a < 2 ^ 32) : sub32 a b = a - b := by
  unfold sub32
  omega

/-- The `n` bytes from address `a` on. -/
def slice (m : Memory) (a : Nat) : Nat → List UInt8
  | 0 => []
  | n + 1 => m a :: slice m (a + 1) n

@[simp] theorem length_slice (m : Memory) (a n : Nat) : (slice m a n).length = n := by
  induction n generalizing a with
  | zero => rfl
  | succ n ih => simp [slice, ih]

theorem slice_add (m : Memory) (a i j : Nat) : slice m a (i + j) = slice m a i ++ slice m (a + i) j := by
  induction i generalizing a with
  | zero => simp [slice]
  | succ i ih =>
    have ha : a + (i + 1) = a + 1 + i := by omega
    rw [Nat.succ_add, ha]
    simp only [slice, ih, List.cons_append]

theorem take_slice (m : Memory) (a : Nat) {k n : Nat} (h : k ≤ n) : (slice m a n).take k = slice m a k := by
  obtain ⟨d, rfl⟩ := Nat.exists_eq_add_of_le h
  rw [slice_add, List.take_left' (length_slice m a k)]

theorem getElem?_slice (m : Memory) (a n i : Nat) (hi : i < n) : (slice m a n)[i]? = some (m (a + i)) := by
  induction n generalizing a i with
  | zero => omega
  | succ n ih =>
    cases i with
    | zero => simp [slice]
    | succ i =>
      have ha : a + (i + 1) = a + 1 + i := by omega
      simpa [slice, ha] using ih (a + 1) i (by omega)

theorem mem_slice {m : Memory} {a n : Nat} {b : UInt8} : b ∈ slice m a n ↔ ∃ i < n, m (a + i) = b := by
  rw [List.mem_iff_getElem?]
  constructor
  · rintro ⟨i, hi⟩
    obtain ⟨hlt, -⟩ := List.getElem?_eq_some_iff.mp hi
    rw [length_slice] at hlt
    rw [getElem?_slice m a n i hlt] at hi
    exact ⟨i, hlt, Option.some.inj hi⟩
  · rintro ⟨i, hi, rfl⟩
    exact ⟨i, getElem?_slice m a n i hi⟩

def Holds (m : Memory) (a : Nat) (bs : List UInt8) : Prop := slice m a bs.length = bs

theorem holds_append {m : Memory} {a : Nat} {xs ys : List UInt8} :
    Holds m a (xs ++ ys) ↔ Holds m a xs ∧ Holds m (a + xs.length) ys := by
  unfold Holds
  rw [List.length_append, slice_add]
  constructor
  · intro h
    exact List.append_inj h (by simp)
  · rintro ⟨hx, hy⟩
    rw [hx, hy]

theorem holds_cons {m : Memory} {a : Nat} {b : UInt8} {bs : List UInt8} :
    Holds m a (b :: bs) ↔ m a = b ∧ Holds m (a + 1) bs := by
  unfold Holds
  simp [slice]

theorem eq_of_holds_terminated {m : Memory} {a : Nat} {xs ys : List UInt8} (hx : 0 ∉ xs) (hy : 0 ∉ ys)
    (hxs : Holds m a (xs ++ [0])) (hys : Holds m a (ys ++ [0])) : xs = ys := by
  induction xs generalizing a ys with
  | nil =>
    have ha : m a = 0 := (holds_cons.mp hxs).1
    cases ys with
    | nil => rfl
    | cons y ys =>
      obtain ⟨rfl, -⟩ := holds_cons.mp hys
      rw [ha] at hy
      exact absurd List.mem_cons_self hy
  | cons x xs ih =>
    obtain ⟨hxa, hxs⟩ := holds_cons.mp hxs
    cases ys with
    | nil =>
      have ha : m a = 0 := (holds_cons.mp hys).1
      rw [← hxa, ha] at hx
      exact absurd List.mem_cons_self hx
    | cons y ys =>
      obtain ⟨hya, hys⟩ := holds_cons.mp hys
      rw [List.mem_cons, not_or] at hx hy
      rw [← hxa, hya, ih hx.2 hy.2 hxs hys]

/-- Copy the bytes `bs` to address `a` on. -/
def store (m : Memory) (a : Nat) (bs : List UInt8) : Memory :=
  fun x => if a ≤ x then (bs[x - a]?).getD (m x) else m x

theorem slice_congr {m m' : Memory} {a n : Nat} (h : ∀ x, a ≤ x → x < a + n → m x = m' x) :
    slice m a n = slice m' a n := by
  induction n generalizing a with
  | zero => rfl
  | succ n ih =>
    have hrest := ih (a := a + 1) fun x hlo hhi => h x (by omega) (by omega)
    simp only [slice, hrest, h a le_rfl (by omega)]

theorem holds_store (m : Memory) (a : Nat) (bs : List UInt8) : Holds (store m a bs) a bs := by
  apply List.ext_getElem?
  intro i
  by_cases hi : i < bs.length
  · rw [getElem?_slice _ _ _ _ hi]
    simp [store, hi]
  · rw [List.getElem?_eq_none (by simpa using hi), List.getElem?_eq_none (by simpa using hi)]

theorem store_out (m : Memory) {o x : Nat} {bs : List UInt8} (h : x < o ∨ o + bs.length ≤ x) :
    store m o bs x = m x := by
  rw [store]
  split_ifs with ho
  · rw [List.getElem?_eq_none (by omega)]
    rfl
  · rfl

theorem store_nil (m : Memory) (a : Nat) : store m a [] = m := by
  funext x
  simp [store]

theorem store_append (m : Memory) (a : Nat) (xs ys : List UInt8) :
    store (store m a xs) (a + xs.length) ys = store m a (xs ++ ys) := by
  funext x
  by_cases hx : x < a + xs.length
  · rw [store_out _ (.inl hx)]
    by_cases ha : a ≤ x
    · simp only [store, ha, ↓reduceIte]
      rw [List.getElem?_append_left (by omega)]
    · simp only [store, ha, ↓reduceIte]
  · have ha : a ≤ x := by omega
    have hsub : x - a - xs.length = x - (a + xs.length) := by omega
    have hout : store m a xs x = m x := store_out m (.inr (by omega))
    simp only [store, ha, Nat.not_lt.mp hx, ↓reduceIte] at hout ⊢
    rw [hout, List.getElem?_append_right (by omega), hsub]

theorem slice_store_out (m : Memory) {o a n : Nat} {bs : List UInt8}
    (h : a + n ≤ o ∨ o + bs.length ≤ a) : slice (store m o bs) a n = slice m a n := by
  apply slice_congr
  intro x hx hx'
  apply store_out
  omega

/-- A little-endian 32-bit number, assembled from its bytes. -/
def le32 (b0 b1 b2 b3 : UInt8) : Nat :=
  b0.toNat ||| b1.toNat <<< 8 ||| b2.toNat <<< 16 ||| b3.toNat <<< 24

def toLe32 (n : Nat) : List UInt8 :=
  [UInt8.ofNat n, UInt8.ofNat (n / 2 ^ 8), UInt8.ofNat (n / 2 ^ 16), UInt8.ofNat (n / 2 ^ 24)]

/-- The fields do not overlap, so the disjunctions are a sum. -/
theorem le32_eq (b0 b1 b2 b3 : UInt8) :
    le32 b0 b1 b2 b3 =
      b0.toNat + 2 ^ 8 * b1.toNat + 2 ^ 16 * b2.toNat + 2 ^ 24 * b3.toNat := by
  have h0 : b0.toNat < 2 ^ 8 := b0.toNat_lt
  have h1 : b1.toNat < 2 ^ 8 := b1.toNat_lt
  have h2 : b2.toNat < 2 ^ 8 := b2.toNat_lt
  have step : ∀ {x : Nat} (i : Nat) (y : Nat), x < 2 ^ i → x ||| y <<< i = x + 2 ^ i * y := by
    intro x i y hx
    rw [Nat.or_comm, ← Nat.shiftLeft_add_eq_or_of_lt hx, Nat.shiftLeft_eq]
    ring
  unfold le32
  rw [step 8 _ h0, step 16 _ (by omega), step 24 _ (by omega)]

theorem le32_lt (b0 b1 b2 b3 : UInt8) : le32 b0 b1 b2 b3 < 2 ^ 32 := by
  have h0 := b0.toNat_lt
  have h1 := b1.toNat_lt
  have h2 := b2.toNat_lt
  have h3 := b3.toNat_lt
  rw [le32_eq]
  omega

@[simp] theorem length_toLe32 (n : Nat) : (toLe32 n).length = 4 := rfl

theorem toLe32_le32 (b0 b1 b2 b3 : UInt8) : toLe32 (le32 b0 b1 b2 b3) = [b0, b1, b2, b3] := by
  have h0 := b0.toNat_lt
  have h1 := b1.toNat_lt
  have h2 := b2.toNat_lt
  have h3 := b3.toNat_lt
  rw [le32_eq]
  simp only [toLe32, List.cons.injEq, and_true, ← UInt8.toNat_inj, UInt8.toNat_ofNat']
  omega

theorem le32_toLe32 {n : Nat} (hn : n < 2 ^ 32) :
    le32 (UInt8.ofNat n) (UInt8.ofNat (n / 2 ^ 8)) (UInt8.ofNat (n / 2 ^ 16))
      (UInt8.ofNat (n / 2 ^ 24)) = n := by
  rw [le32_eq]
  simp only [UInt8.toNat_ofNat']
  omega

/-- The number stored in memory at address `a`, read byte by byte. -/
def word (m : Memory) (a : Nat) : Nat :=
  le32 (m a) (m (add32 a 1)) (m (add32 a 2)) (m (add32 a 3))

theorem word_lt (m : Memory) (a : Nat) : word m a < 2 ^ 32 := le32_lt _ _ _ _

theorem toLe32_word (m : Memory) {a : Nat} (ha : a + 4 ≤ 2 ^ 32) : toLe32 (word m a) = slice m a 4 := by
  unfold word
  rw [toLe32_le32, add32_of_lt (by omega), add32_of_lt (by omega), add32_of_lt (by omega)]
  rfl

theorem word_of_holds {m : Memory} {a n : Nat} (ha : a + 4 ≤ 2 ^ 32) (hn : n < 2 ^ 32)
    (h : Holds m a (toLe32 n)) : word m a = n := by
  unfold word
  rw [add32_of_lt (by omega), add32_of_lt (by omega), add32_of_lt (by omega)]
  simp only [toLe32, holds_cons, Nat.add_assoc, Nat.reduceAdd] at h
  obtain ⟨h0, h1, h2, h3, -⟩ := h
  rw [h0, h1, h2, h3, le32_toLe32 hn]

end FlashApp.Bytes

namespace FlashApp.Access

open Bytes

variable {α β : Type}

/-- A result together with the addresses that were read for it. -/
structure Reading (α : Type) where
  addresses : List Nat
  val : α

instance : Monad Reading where
  pure a := ⟨[], a⟩
  bind x f := ⟨x.addresses ++ (f x.val).addresses, (f x.val).val⟩

@[simp] theorem addresses_pure (a : α) : (pure a : Reading α).addresses = [] := rfl

@[simp] theorem val_pure (a : α) : (pure a : Reading α).val = a := rfl

@[simp] theorem addresses_bind (x : Reading α) (f : α → Reading β) :
    (x >>= f).addresses = x.addresses ++ (f x.val).addresses := rfl

@[simp] theorem val_bind (x : Reading α) (f : α → Reading β) : (x >>= f).val = (f x.val).val := rfl

def readByte (m : Memory) (a : Nat) : Reading UInt8 := ⟨[a], m a⟩

@[simp] theorem addresses_readByte (m : Memory) (a : Nat) : (readByte m a).addresses = [a] := rfl

@[simp] theorem val_readByte (m : Memory) (a : Nat) : (readByte m a).val = m a := rfl

def readBytes (m : Memory) (a n : Nat) : Reading (List UInt8) := ⟨List.range' a n, slice m a n⟩

@[simp] theorem addresses_readBytes (m : Memory) (a n : Nat) : (readBytes m a n).addresses = List.range' a n := rfl

@[simp] theorem val_readBytes (m : Memory) (a n : Nat) : (readBytes m a n).val = slice m a n := rfl

end FlashApp.Access
