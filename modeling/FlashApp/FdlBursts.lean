import FlashApp.FdlCoverage

namespace FlashApp.FdlBursts

open Bytes Interaction Flasher Fdl FdlCoverage

theorem crcShift_xor (x y : BitVec 32) : crcShift (x ^^^ y) = crcShift x ^^^ crcShift y := by
  have hshift : (x ^^^ y) >>> 1 = x >>> 1 ^^^ y >>> 1 := BitVec.ushiftRight_xor_distrib x y 1
  have htwice : ∀ a b p : BitVec 32, a ^^^ p ^^^ (b ^^^ p) = a ^^^ b := by
    intro a b p
    calc a ^^^ p ^^^ (b ^^^ p) = a ^^^ b ^^^ (p ^^^ p) := by ac_rfl
      _ = a ^^^ b := by rw [BitVec.xor_self, BitVec.xor_zero]
  simp only [crcShift, BitVec.getLsbD_xor, hshift]
  cases x.getLsbD 0 with
  | false =>
    cases y.getLsbD 0 with
    | false => rfl
    | true =>
      simp only [Bool.bne_true, Bool.not_false, ↓reduceIte, Bool.false_eq_true]
      ac_rfl
  | true =>
    cases y.getLsbD 0 with
    | false =>
      simp only [Bool.bne_false, ↓reduceIte, Bool.false_eq_true]
      ac_rfl
    | true => exact (htwice _ _ _).symm

theorem crcShift_eq_zero {x : BitVec 32} (h : crcShift x = 0) : x = 0 := by
  rw [crcShift] at h
  split_ifs at h with hlow
  · -- the polynomial has its highest bit, and the shifted register has not
    have hbit := congrArg (BitVec.getLsbD · 31) h
    simp at hbit
  · apply BitVec.eq_of_getLsbD_eq
    intro i hi
    rcases i with _ | i
    · simpa using hlow
    · have hbit := congrArg (BitVec.getLsbD · i) h
      simpa [BitVec.getLsbD_ushiftRight, Nat.add_comm] using hbit

/-- Shifting out a zero does not apply the polynomial. -/
theorem crcShift_shiftLeft {x : BitVec 32} (hx : x.getLsbD 31 = false) : crcShift (x <<< 1) = x := by
  rw [crcShift, if_neg (by simp)]
  apply BitVec.eq_of_getLsbD_eq
  intro i hi
  rw [BitVec.getLsbD_ushiftRight, BitVec.getLsbD_shiftLeft]
  by_cases h31 : i = 31
  · subst h31
    rw [hx]
    rfl
  · have hlt : 1 + i < 32 := by omega
    simp [hlt]

theorem shift_xor (n : Nat) (x y : BitVec 32) :
    Nat.iterate crcShift n (x ^^^ y) = Nat.iterate crcShift n x ^^^ Nat.iterate crcShift n y := by
  induction n generalizing x y with
  | zero => rfl
  | succ n ih =>
    rw [Function.iterate_succ_apply, Function.iterate_succ_apply, Function.iterate_succ_apply, crcShift_xor, ih]

theorem shift_eq_zero (n : Nat) {x : BitVec 32} (h : Nat.iterate crcShift n x = 0) : x = 0 := by
  induction n generalizing x with
  | zero => exact h
  | succ n ih => exact crcShift_eq_zero (ih h)

theorem shift_shiftLeft (n : Nat) {x : BitVec 32} (hn : n ≤ 32) (hx : ∀ i, 32 - n ≤ i → x.getLsbD i = false) :
    Nat.iterate crcShift n (x <<< n) = x := by
  induction n with
  | zero => simp
  | succ n ih =>
    have hsplit : x <<< (n + 1) = x <<< n <<< 1 := BitVec.shiftLeft_add x n 1
    have htop : (x <<< n).getLsbD 31 = false := by
      rw [BitVec.getLsbD_shiftLeft, hx (31 - n) (by omega), Bool.and_false]
    rw [Function.iterate_succ_apply, hsplit, crcShift_shiftLeft htop]
    exact ih (by omega) fun i hi => hx i (by omega)

theorem crcDataIn_xor (c d : BitVec 32) (a b : UInt8) :
    crcDataIn c a ^^^ crcDataIn d b = crcDataIn (c ^^^ d) (a ^^^ b) := by
  rw [crcDataIn, crcDataIn, crcDataIn, ← shift_xor, UInt8.toBitVec_xor, BitVec.setWidth_xor]
  congr 1
  ac_rfl

def crcFold (c : BitVec 32) (bs : List UInt8) : BitVec 32 := bs.foldl crcDataIn c

theorem crcFold_xor (c d : BitVec 32) (xs ys : List UInt8) (hlen : xs.length = ys.length) :
    crcFold c xs ^^^ crcFold d ys = crcFold (c ^^^ d) (List.zipWith (· ^^^ ·) xs ys) := by
  induction xs generalizing c d ys with
  | nil =>
    cases ys with
    | nil => rfl
    | cons y ys => simp at hlen
  | cons x xs ih =>
    cases ys with
    | nil => simp at hlen
    | cons y ys =>
      simp only [crcFold, List.foldl_cons, List.zipWith_cons_cons]
      rw [← crcDataIn_xor]
      exact ih _ _ ys (by simpa using hlen)

/-- The bytes as they come into the register, the first one in the low byte. -/
def crcWord : List UInt8 → BitVec 32
  | [] => 0
  | b :: bs => b.toBitVec.setWidth 32 ^^^ crcWord bs <<< 8

theorem crcWord_high (bs : List UInt8) {i : Nat} (hi : 8 * bs.length ≤ i) : (crcWord bs).getLsbD i = false := by
  induction bs generalizing i with
  | nil => simp [crcWord]
  | cons b bs ih =>
    rw [List.length_cons] at hi
    rw [crcWord, BitVec.getLsbD_xor, BitVec.getLsbD_shiftLeft, ih (i := i - 8) (by omega), BitVec.getLsbD_setWidth,
      BitVec.getLsbD_of_ge _ _ (by omega)]
    simp

/-- A register that up to four bytes bring to zero holds just these bytes. -/
theorem eq_crcWord {bs : List UInt8} (hlen : bs.length ≤ 4) {c : BitVec 32} (h : crcFold c bs = 0) :
    c = crcWord bs := by
  induction bs generalizing c with
  | nil => exact h
  | cons b bs ih =>
    rw [List.length_cons] at hlen
    have hnext := ih (by omega) h
    have hback : Nat.iterate crcShift 8 (crcWord bs <<< 8) = crcWord bs :=
      shift_shiftLeft 8 (by omega) fun i hi => crcWord_high bs (by omega)
    have hzero : Nat.iterate crcShift 8 (c ^^^ b.toBitVec.setWidth 32 ^^^ crcWord bs <<< 8) = 0 := by
      rw [shift_xor, hback, ← hnext]
      exact BitVec.xor_self
    have heq := shift_eq_zero 8 hzero
    rw [crcWord]
    exact BitVec.xor_eq_zero_iff.mp (by rw [← BitVec.xor_assoc]; exact heq)

theorem crcWord_eq_zero {bs : List UInt8} (hlen : bs.length ≤ 4) (h : crcWord bs = 0) : ∀ b ∈ bs, b = 0 := by
  induction bs with
  | nil => simp
  | cons b bs ih =>
    rw [List.length_cons] at hlen
    have hbit : ∀ i, ((b.toBitVec.setWidth 32).getLsbD i ^^ (crcWord bs <<< 8).getLsbD i) = false := by
      intro i
      rw [← BitVec.getLsbD_xor, ← crcWord, h]
      exact BitVec.getLsbD_zero
    have hlow : b = 0 := by
      apply UInt8.toBitVec_inj.mp
      apply BitVec.eq_of_getLsbD_eq
      intro i hi
      have hi' := hbit i
      rw [BitVec.getLsbD_setWidth, BitVec.getLsbD_shiftLeft] at hi'
      simpa [hi, (by omega : i < 32)] using hi'
    have hrest : crcWord bs = 0 := by
      apply BitVec.eq_of_getLsbD_eq
      intro i hi
      by_cases h24 : i < 24
      · have hi' := hbit (i + 8)
        rw [hlow, BitVec.getLsbD_shiftLeft] at hi'
        simpa [(by omega : i + 8 < 32)] using hi'
      · rw [crcWord_high bs (by omega)]
        exact BitVec.getLsbD_zero.symm
    rw [List.forall_mem_cons]
    exact ⟨hlow, ih (by omega) hrest⟩

theorem crcFold_inj (bs : List UInt8) {c d : BitVec 32} (h : crcFold c bs = crcFold d bs) : c = d := by
  induction bs generalizing c d with
  | nil => exact h
  | cons b bs ih =>
    have hnext : crcDataIn c b ^^^ crcDataIn d b = 0 := by
      rw [ih h]
      exact BitVec.xor_self
    rw [crcDataIn_xor, UInt8.xor_self] at hnext
    have hzero := shift_eq_zero 8 hnext
    rw [UInt8.toBitVec_zero, BitVec.setWidth_zero] at hzero
    exact BitVec.xor_eq_zero_iff.mp (by rwa [BitVec.xor_zero] at hzero)

/-- Data that differs in at most four bytes in a row has another checksum. -/
theorem crc32_burst {p xs ys q : List UInt8} (hlen : xs.length = ys.length) (hfour : xs.length ≤ 4)
    (h : crc32 (p ++ xs ++ q) = crc32 (p ++ ys ++ q)) : xs = ys := by
  have hcrc : crcFold 0xffffffff#32 (p ++ xs ++ q) = crcFold 0xffffffff#32 (p ++ ys ++ q) :=
    (BitVec.xor_left_inj _).mp (BitVec.eq_of_toNat_eq h)
  simp only [crcFold, List.foldl_append] at hcrc
  have hend := crcFold_inj q hcrc
  have hzero : crcFold 0 (List.zipWith (· ^^^ ·) xs ys) = 0 := by
    have hboth := crcFold_xor (p.foldl crcDataIn 0xffffffff#32) (p.foldl crcDataIn 0xffffffff#32) xs ys hlen
    rw [BitVec.xor_self] at hboth
    rw [crcFold, crcFold, hend, BitVec.xor_self] at hboth
    exact hboth.symm
  have hzip : (List.zipWith (· ^^^ ·) xs ys).length ≤ 4 := by
    rw [List.length_zipWith]
    omega
  have hbytes := crcWord_eq_zero hzip (eq_crcWord hzip hzero).symm
  apply List.ext_getElem hlen
  intro i hx hy
  have hmem : xs[i] ^^^ ys[i] ∈ List.zipWith (· ^^^ ·) xs ys := by
    have hi : i < (List.zipWith (· ^^^ ·) xs ys).length := by
      rw [List.length_zipWith]
      omega
    rw [← List.getElem_zipWith (f := (· ^^^ ·)) (h := hi)]
    exact List.getElem_mem hi
  exact UInt8.xor_eq_zero_iff.mp (hbytes _ hmem)

/-- An FDL that was damaged: up to four bytes in a row of the content, any bytes
of the frame around it, or its size. -/
inductive Damaged (buf buf' : Memory) : Prop
  | content (a n : Nat) (hn : n ≤ 4) (hlo : sizFdlHeader ≤ a) (hhi : a + n ≤ sizFdlHeader + usContentSize buf)
      (hsame : ∀ x, x < a ∨ a + n ≤ x → buf' x = buf x) (x : Nat) (hne : buf' x ≠ buf x)
  | frame (hsame : ∀ x, 14 ≤ x → x < sizFdlHeader + sizFdlData → buf' x = buf x) (x : Nat) (hx : x < sizFdl)
      (hne : buf' x ≠ buf x)
  | size (hsame : ∀ x, x < 14 → buf' x = buf x) (hne : usContentSize buf' ≠ usContentSize buf)

theorem half_congr {m m' : Memory} {a : Nat} (h0 : m a = m' a) (h1 : m (a + 1) = m' (a + 1)) :
    half m a = half m' a := by
  rw [half, half, h0, h1]

theorem half_inj {m m' : Memory} {a : Nat} (h : half m a = half m' a) : m a = m' a ∧ m (a + 1) = m' (a + 1) := by
  have hle : ∀ m : Memory, le32 (m a) (m (a + 1)) 0 0 = half m a := fun m => by simp [le32, half]
  have hbytes := congrArg toLe32 ((hle m).trans (h.trans (hle m').symm))
  rw [toLe32_le32, toLe32_le32] at hbytes
  simp only [List.cons.injEq] at hbytes
  exact ⟨hbytes.1, hbytes.2.1⟩

theorem slice_inj {m m' : Memory} {a n : Nat} (h : slice m a n = slice m' a n) {x : Nat} (hlo : a ≤ x)
    (hhi : x < a + n) : m x = m' x := by
  have hget := getElem?_slice m a n (x - a) (by omega)
  rw [h, getElem?_slice m' a n (x - a) (by omega), Nat.add_sub_cancel' hlo] at hget
  exact (Option.some.inj hget).symm

theorem damaged_not_valid {buf buf' : Memory} (hv : Valid buf) (hd : Damaged buf buf') : ¬ Valid buf' := by
  intro hv'
  have hsize := hv.size
  have hsize' := hv'.size
  have havail := hv.available
  simp only [sizFdl, sizFdlHeader, sizFdlData, sizFdlFooter] at hsize hsize' havail
  cases hd with
  | content a n hn hlo hhi hsame x hne =>
    rw [sizFdlHeader] at hlo hhi
    have hcontent : usContentSize buf' = usContentSize buf :=
      half_congr (hsame _ (by omega)) (hsame _ (by omega))
    have hsum' : ulChecksum buf' = ulChecksum buf := by
      simp only [ulChecksum, word, sizFdlHeader, sizFdlData, add32, Nat.reduceAdd, Nat.reduceMod, Nat.reducePow]
      rw [hsame 980 (by omega), hsame 981 (by omega), hsame 982 (by omega), hsame 983 (by omega)]
    have hcut : usContentSize buf = (a - 16) + n + (16 + usContentSize buf - (a + n)) := by omega
    have haddr : 16 + (a - 16) = a := by omega
    have haddr' : 16 + (a - 16 + n) = a + n := by omega
    have hfront : slice buf' 16 (a - 16) = slice buf 16 (a - 16) :=
      slice_congr fun x _ h => hsame x (by omega)
    have hback : slice buf' (a + n) (16 + usContentSize buf - (a + n)) =
        slice buf (a + n) (16 + usContentSize buf - (a + n)) := slice_congr fun x h _ => hsame x (by omega)
    have hsum := hv'.checksum
    rw [hsum', ← hv.checksum, hcontent, hcut, sizFdlHeader, slice_add, slice_add, slice_add, slice_add, haddr,
      haddr', hfront, hback] at hsum
    have heq := crc32_burst (by simp) (by simpa using hn) hsum
    by_cases hin : a ≤ x ∧ x < a + n
    · exact hne (slice_inj heq hin.1 hin.2)
    · exact hne (hsame x (by omega))
  | frame hsame x hx hne =>
    rw [sizFdlHeader, sizFdlData] at hsame
    rw [sizFdl, sizFdlHeader, sizFdlData, sizFdlFooter] at hx
    have hcontent : usContentSize buf' = usContentSize buf :=
      half_congr (hsame 14 (by omega) (by omega)) (hsame 15 (by omega) (by omega))
    have hlabel : half buf' 12 = half buf 12 := by
      simp only [usLabelSize] at hsize hsize'
      omega
    have hsum : ulChecksum buf' = ulChecksum buf := by
      rw [← hv'.checksum, ← hv.checksum, hcontent]
      congr 1
      apply slice_congr
      intro x hlo hhi
      rw [sizFdlHeader] at hlo hhi
      exact hsame x (by omega) (by omega)
    have hword : slice buf' 980 4 = slice buf 980 4 := by
      rw [← toLe32_word buf' (by decide), ← toLe32_word buf (by decide)]
      exact congrArg toLe32 hsum
    have hstart := hv'.startToken.trans hv.startToken.symm
    have hend := hv'.endToken.trans hv.endToken.symm
    rw [sizFdlHeader, sizFdlData] at hend
    obtain ⟨h12, h13⟩ := half_inj hlabel
    apply hne
    obtain h | rfl | rfl | h | h | h : x < 12 ∨ x = 12 ∨ x = 13 ∨ (14 ≤ x ∧ x < 980) ∨ (980 ≤ x ∧ x < 984) ∨
        (984 ≤ x ∧ x < 996) := by omega
    · exact slice_inj hstart (by omega) (by omega)
    · exact h12
    · exact h13
    · exact hsame x h.1 h.2
    · exact slice_inj hword h.1 (by omega)
    · exact slice_inj hend (by omega) (by omega)
  | size hsame hne =>
    have hlabel : usLabelSize buf' = usLabelSize buf := half_congr (hsame 12 (by omega)) (hsame 13 (by omega))
    omega

/-- `readFDL` refuses every FDL that was damaged like this, and leaves the
device info alone. -/
theorem damaged_refused {api : Headers} {info info' : DeviceInfo} {t : List FlashEvent} {iResult : Int}
    {buf buf' : Memory} (hv : Valid buf) (hd : Damaged buf buf')
    (hr : Runs (readFDL api crc32 info) t (iResult, info')) (hc : Content t buf') :
    iResult = -1 ∧ info' = info := by
  obtain ⟨-, hno⟩ | ⟨buf'', hres, hcontent⟩ := readFDL_cases hr
  · exact absurd hc (hno buf')
  · obtain rfl := (hcontent buf').mp hc
    rw [checkFdl_not_valid (damaged_not_valid hv hd)] at hres
    exact Prod.mk.inj hres

def damagedFdl : Memory := Function.update (zeroFdl 46 14 [0xc7, 0x79, 0xbb, 0xd1]) 20 1

theorem damagedFdl_damaged : Damaged (zeroFdl 46 14 [0xc7, 0x79, 0xbb, 0xd1]) damagedFdl := by
  refine .content 20 1 (by decide) (by decide) (by decide +kernel) ?_ 20 (by decide +kernel)
  intro x hx
  exact Function.update_of_ne (by omega) _ _

theorem runs_checkFdl (api : Headers) (buf : Memory) (info : DeviceInfo) :
    Runs (readFDL api crc32 info) (zeroFdlEvents api buf) (checkFdl crc32 buf info) :=
  ⟨(.ok, []), _, rfl, (.ok, buf), _, rfl, rfl, rfl⟩

theorem damaged_refused_damagedFdl : (checkFdl crc32 damagedFdl .cleared).1 = -1 := by
  have hr := runs_checkFdl WfpGood.exampleHeaders damagedFdl .cleared
  generalize checkFdl crc32 damagedFdl .cleared = r at hr ⊢
  obtain ⟨iResult, info'⟩ := r
  exact (damaged_refused zeroFdl_valid damagedFdl_damaged hr ⟨[], by simp [zeroFdlEvents]⟩).1

end FlashApp.FdlBursts
