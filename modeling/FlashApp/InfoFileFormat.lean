import FlashApp.InfoFile
import Mathlib.Data.List.TakeWhile

namespace FlashApp.InfoFile

open Fdl

def IsNewlines (nl : List UInt8) : Prop := nl ≠ [] ∧ ∀ c ∈ nl, isNewline c = true

instance (nl : List UInt8) : Decidable (IsNewlines nl) := inferInstanceAs (Decidable (_ ∧ _))

def IsName (name : List UInt8) : Prop := name.length ≤ 1022 ∧ ∀ c ∈ name, isNewline c = false

instance (name : List UInt8) : Decidable (IsName name) := inferInstanceAs (Decidable (_ ∧ _))

def digitAt (digits : List UInt8) (i : Nat) : Option Nat := digitValue (digits.getD i 0)

/-- The hash in hexadecimal digits, two for each byte and in any case. -/
structure IsHex (digits hash : List UInt8) : Prop where
  length_digits : digits.length = 96
  length_hash : hash.length = 48
  byte : ∀ i < 48, ∃ hi lo, digitAt digits (2 * i) = some hi ∧ digitAt digits (2 * i + 1) = some lo ∧
    (hash.getD i 0).toNat = 16 * hi + lo

theorem skipNewlines_eq (cs : List UInt8) : skipNewlines cs = cs.dropWhile isNewline := by
  induction cs with
  | nil => rfl
  | cons c cs ih =>
    cases hc : isNewline c with
    | true => simp [skipNewlines, hc, ih]
    | false => simp [skipNewlines, hc]

theorem lineSize_eq (cs : List UInt8) : lineSize cs = (cs.takeWhile (!isNewline ·)).length := by
  induction cs with
  | nil => rfl
  | cons c cs ih =>
    cases hc : isNewline c with
    | true => simp [lineSize, hc]
    | false => simp [lineSize, hc, ih]

theorem take_lineSize (cs : List UInt8) : cs.take (lineSize cs) = cs.takeWhile (!isNewline ·) := by
  rw [lineSize_eq]
  exact (List.prefix_iff_eq_take.mp (List.takeWhile_prefix _)).symm

theorem drop_lineSize (cs : List UInt8) : cs.drop (lineSize cs) = cs.dropWhile (!isNewline ·) := by
  have h := List.takeWhile_append_dropWhile (p := (!isNewline ·)) (l := cs)
  rw [lineSize_eq]
  nth_rewrite 2 [← h]
  exact List.drop_left

theorem lineSize_append {name rest : List UInt8} (hname : ∀ c ∈ name, isNewline c = false)
    (hrest : ∀ c, rest.head? = some c → isNewline c = true) : lineSize (name ++ rest) = name.length := by
  have hpos : ∀ c ∈ name, (!isNewline c) = true := fun c hc => by simp [hname c hc]
  rw [lineSize_eq, List.takeWhile_append_of_pos hpos, List.length_append]
  cases rest with
  | nil => rfl
  | cons c cs => simp [hrest c rfl]

theorem skipNewlines_append {nl rest : List UInt8} (hnl : ∀ c ∈ nl, isNewline c = true)
    (hrest : ∀ c, rest.head? = some c → isNewline c = false) : skipNewlines (nl ++ rest) = rest := by
  rw [skipNewlines_eq, List.dropWhile_append_of_pos hnl]
  cases rest with
  | nil => rfl
  | cons c cs => simp [hrest c rfl]

theorem split_line {cs : List UInt8} (h : lineSize cs < cs.length) :
    ∃ nl, cs = cs.take (lineSize cs) ++ nl ++ skipNewlines (cs.drop (lineSize cs)) ∧
      (∀ c ∈ cs.take (lineSize cs), isNewline c = false) ∧ IsNewlines nl := by
  have hne : cs.drop (lineSize cs) ≠ [] := by
    simpa using h
  refine ⟨(cs.drop (lineSize cs)).takeWhile isNewline, ?_, ?_, ?_, ?_⟩
  · rw [skipNewlines_eq, List.append_assoc, List.takeWhile_append_dropWhile, List.take_append_drop]
  · intro c hc
    rw [take_lineSize] at hc
    simpa using List.mem_takeWhile_imp hc
  · rw [drop_lineSize] at hne ⊢
    have hhead := List.head_dropWhile_not (fun c => !isNewline c) hne
    obtain ⟨c, rest, heq⟩ := List.exists_cons_of_ne_nil hne
    simp only [heq, List.head_cons, Bool.not_eq_false'] at hhead
    simp [heq, hhead]
  · intro c hc
    exact List.mem_takeWhile_imp hc

theorem digitValue_lt {c : UInt8} {v : Nat} (h : digitValue c = some v) : v < 16 := by
  unfold digitValue at h
  split_ifs at h with h0 h1 h2
  all_goals
    obtain rfl := Option.some.inj h
    simp only [UInt8.le_iff_toNat_le, UInt8.reduceToNat] at *
    omega

/-- The hash after `k` digits: the lower half of the byte for digit `k` is still
zero if `k` is odd, and so is all that follows. -/
structure Parsed (digits : List UInt8) (k : Nat) (tHash : List UInt8) : Prop where
  length : tHash.length = 48
  digit : ∀ i < k, (digitAt digits i).isSome
  byte : ∀ i < 48, (tHash.getD i 0).toNat =
    (if 2 * i < k then 16 * (digitAt digits (2 * i)).getD 0 else 0) +
      (if 2 * i + 1 < k then (digitAt digits (2 * i + 1)).getD 0 else 0)

theorem parsed_zero (digits : List UInt8) : Parsed digits 0 (List.replicate 48 0) where
  length := by simp
  digit i hi := by omega
  byte i hi := by
    rw [List.getD_replicate 0 hi]
    simp

theorem getD_set_ne {bs : List UInt8} {i j : Nat} (hij : i ≠ j) (b : UInt8) :
    (bs.set j b).getD i 0 = bs.getD i 0 := by
  rw [List.getD_eq_getElem?_getD, List.getElem?_set_ne (Ne.symm hij), ← List.getD_eq_getElem?_getD]

theorem getD_set_self {bs : List UInt8} {i : Nat} (hi : i < bs.length) (b : UInt8) :
    (bs.set i b).getD i 0 = b := by
  rw [List.getD_eq_getElem?_getD, List.getElem?_set_self hi, Option.getD_some]

theorem toNat_high {b : UInt8} {v : Nat} (hb : b.toNat = 0) (hv : v < 16) :
    (b ||| UInt8.ofNat (v <<< 4)).toNat = 16 * v := by
  rw [UInt8.toNat_or, hb, Nat.zero_or, UInt8.toNat_ofNat', Nat.shiftLeft_eq]
  omega

theorem toNat_low {b : UInt8} {hi v : Nat} (hb : b.toNat = 16 * hi) (hv : v < 16) :
    (b ||| UInt8.ofNat (v <<< 0)).toNat = 16 * hi + v := by
  rw [UInt8.toNat_or, hb, UInt8.toNat_ofNat', Nat.shiftLeft_zero, Nat.mod_eq_of_lt (by omega)]
  exact (Nat.two_pow_add_eq_or_of_lt (i := 4) hv hi).symm

theorem Parsed.step {digits : List UInt8} {k v : Nat} {tHash : List UInt8} (hp : Parsed digits k tHash)
    (hk : k < 96) (hv : digitAt digits k = some v) :
    Parsed digits (k + 1) (tHash.set (k / 2)
      (tHash.getD (k / 2) 0 ||| UInt8.ofNat (v <<< (((k &&& 1) ^^^ 1) <<< 2)))) where
  length := by rw [List.length_set, hp.length]
  digit i hi := by
    rcases Nat.lt_succ_iff_lt_or_eq.mp hi with hlt | rfl
    · exact hp.digit i hlt
    · rw [hv]
      rfl
  byte i hi := by
    have hlen := hp.length
    have hv16 := digitValue_lt hv
    have hbyte := hp.byte i hi
    by_cases hik : i = k / 2
    · subst hik
      rw [getD_set_self (by omega), Nat.and_one_is_mod]
      rcases Nat.mod_two_eq_zero_or_one k with hmod | hmod
      · have hk2 : 2 * (k / 2) = k := by omega
        rw [hk2, if_neg (by omega), if_neg (by omega)] at hbyte
        rw [hmod, hk2, if_pos (by omega), if_neg (by omega), hv]
        exact toNat_high hbyte hv16
      · have hk2 : 2 * (k / 2) + 1 = k := by omega
        rw [hk2, if_pos (by omega), if_neg (by omega), Nat.add_zero] at hbyte
        rw [hmod, hk2, if_pos (by omega), if_pos (by omega), hv]
        exact toNat_low hbyte hv16
    · rw [getD_set_ne hik, hbyte]
      have hhigh : 2 * i < k ↔ 2 * i < k + 1 := by omega
      have hlow : 2 * i + 1 < k ↔ 2 * i + 1 < k + 1 := by omega
      simp only [hhigh, hlow]

theorem parseDigits_spec {digits : List UInt8} {n k : Nat} {tHash : List UInt8} (hn : k + n = 96)
    (hp : Parsed digits k tHash) :
    ∃ c tHash', parseDigits digits n k (k / 2) tHash = (c, tHash') ∧ c ≤ 96 ∧ Parsed digits c tHash' ∧
      (c < 96 → digitAt digits c = none) := by
  induction n generalizing k tHash with
  | zero => exact ⟨k, tHash, rfl, by omega, hp, by omega⟩
  | succ n ih =>
    rw [parseDigits]
    cases hv : digitValue (digits.getD k 0) with
    | none => exact ⟨k, tHash, rfl, by omega, hp, fun _ => hv⟩
    | some v =>
      have hpos : k / 2 + (k &&& 1) = (k + 1) / 2 := by
        rw [Nat.and_one_is_mod]
        omega
      simp only [hpos]
      exact ih (by omega) (hp.step (by omega) hv)

theorem digitValue_newline {c : UInt8} (h : isNewline c = true) : digitValue c = none := by
  simp only [isNewline, Bool.or_eq_true, beq_iff_eq] at h
  obtain rfl | rfl := h <;> decide

theorem digitAt_take {cs : List UInt8} {i n : Nat} (hi : i < n) : digitAt (cs.take n) i = digitAt cs i := by
  simp [digitAt, List.getD_eq_getElem?_getD, List.getElem?_take_of_lt hi]

theorem Parsed.isHex {cs tHash : List UInt8} (hp : Parsed cs 96 tHash) (hlen : 96 ≤ cs.length) :
    IsHex (cs.take 96) tHash where
  length_digits := by simpa using hlen
  length_hash := hp.length
  byte i hi := by
    obtain ⟨hi', hhi⟩ := Option.isSome_iff_exists.mp (hp.digit (2 * i) (by omega))
    obtain ⟨lo, hlo⟩ := Option.isSome_iff_exists.mp (hp.digit (2 * i + 1) (by omega))
    have hbyte := hp.byte i hi
    rw [if_pos (by omega), if_pos (by omega), hhi, hlo] at hbyte
    exact ⟨hi', lo, by rw [digitAt_take (by omega), hhi], by rw [digitAt_take (by omega), hlo], hbyte⟩

theorem IsHex.unique {digits hash hash' : List UInt8} (h : IsHex digits hash) (h' : IsHex digits hash') :
    hash = hash' := by
  apply List.ext_getElem
  · rw [h.length_hash, h'.length_hash]
  · intro i hi hi'
    have hi48 : i < 48 := h.length_hash ▸ hi
    obtain ⟨a, b, ha, hb, hv⟩ := h.byte i hi48
    obtain ⟨a', b', ha', hb', hv'⟩ := h'.byte i hi48
    obtain rfl := Option.some.inj (ha.symm.trans ha')
    obtain rfl := Option.some.inj (hb.symm.trans hb')
    rw [List.getD_eq_getElem _ _ hi] at hv
    rw [List.getD_eq_getElem _ _ hi'] at hv'
    exact UInt8.toNat_inj.mp (hv.trans hv'.symm)

theorem IsHex.digit {digits hash : List UInt8} (h : IsHex digits hash) {i : Nat} (hi : i < 96) :
    digitAt digits i ≠ none := by
  obtain ⟨hi', lo, hhi, hlo, -⟩ := h.byte (i / 2) (by omega)
  rcases Nat.mod_two_eq_zero_or_one i with hmod | hmod
  · rw [show 2 * (i / 2) = i by omega] at hhi
    simp [hhi]
  · rw [show 2 * (i / 2) + 1 = i by omega] at hlo
    simp [hlo]

theorem parseDigits_hex {digits hash : List UInt8} (h : IsHex digits hash) (rest : List UInt8) :
    parseDigits (digits ++ rest) 96 0 0 (List.replicate 48 0) = (96, hash) := by
  obtain ⟨c, tHash, heq, hc, hp, hstop⟩ := parseDigits_spec (n := 96) rfl (parsed_zero (digits ++ rest))
  have htake : (digits ++ rest).take 96 = digits := List.take_left' h.length_digits
  obtain rfl : c = 96 := by
    by_contra hne
    have hnone := hstop (by omega)
    rw [← digitAt_take (n := 96) (by omega), htake] at hnone
    exact h.digit (by omega) hnone
  have hhex := hp.isHex (by simp [h.length_digits])
  rw [htake] at hhex
  rw [heq, hhex.unique h]

/-- A file with a name, newlines and a hash. -/
structure IsInfoFile (pcBuffer name nl digits hash rest : List UInt8) : Prop where
  text : pcBuffer = name ++ nl ++ digits ++ rest
  name : IsName name
  newlines : IsNewlines nl
  hex : IsHex digits hash

def DeviceInfo.withData (info : DeviceInfo) (name tHash : List UInt8) : DeviceInfo :=
  { info with acDataUri := writeUri info.acDataUri name, tHash := tHash }

theorem IsInfoFile.lineSize_eq {pcBuffer name nl digits hash rest : List UInt8}
    (h : IsInfoFile pcBuffer name nl digits hash rest) : lineSize pcBuffer = name.length := by
  rw [h.text, List.append_assoc, List.append_assoc]
  apply lineSize_append h.name.2
  intro c hc
  obtain ⟨c', cs, rfl⟩ := List.exists_cons_of_ne_nil h.newlines.1
  obtain rfl : c' = c := by simpa using hc
  exact h.newlines.2 c' (by simp)

theorem IsHex.head_not_newline {digits hash : List UInt8} (h : IsHex digits hash) (rest : List UInt8) :
    ∀ c, (digits ++ rest).head? = some c → isNewline c = false := by
  intro c hc
  by_contra hne
  have hdigit := h.digit (i := 0) (by decide)
  cases digits with
  | nil => simpa using h.length_digits
  | cons d ds =>
    obtain rfl : d = c := by simpa using hc
    exact hdigit (digitValue_newline (by simpa using hne))

/-- The digits must not be the end of the file. -/
theorem parseInfoFile_text {pcBuffer name nl digits hash rest : List UInt8}
    (h : IsInfoFile pcBuffer name nl digits hash rest) (info : DeviceInfo) :
    parseInfoFile pcBuffer info =
      if rest = [] then (-1, DeviceInfo.withData info name (List.replicate 48 0))
      else (0, DeviceInfo.withData info name hash) := by
  have hline := h.lineSize_eq
  have htext : pcBuffer = name ++ (nl ++ (digits ++ rest)) := by
    rw [h.text, List.append_assoc, List.append_assoc]
  have hdigits := h.hex.length_digits
  have hname := h.name.1
  have hlt : name.length < pcBuffer.length := by
    simp only [htext, List.length_append]
    omega
  have hskip : skipNewlines (pcBuffer.drop name.length) = digits ++ rest := by
    rw [htext, List.drop_left]
    exact skipNewlines_append h.newlines.2 (h.hex.head_not_newline rest)
  have htake : pcBuffer.take name.length = name := by
    rw [htext, List.take_left]
  have hsize : 96 < (digits ++ rest).length ↔ rest ≠ [] := by
    rw [List.length_append, hdigits, ← List.length_pos_iff]
    omega
  simp only [parseInfoFile, hline, hlt, ↓reduceIte, hskip, htake, hsize, parseDigits_hex h.hex,
    if_pos (show name.length < 1024 - 1 by omega), DeviceInfo.withData]
  by_cases hrest : rest = []
  · simp [hrest]
  · simp [hrest]

theorem text_of_parseInfoFile {pcBuffer : List UInt8} {info info' : DeviceInfo}
    (h : parseInfoFile pcBuffer info = (0, info')) :
    ∃ name nl digits hash rest, IsInfoFile pcBuffer name nl digits hash rest ∧ rest ≠ [] ∧
      info' = DeviceInfo.withData info name hash := by
  obtain ⟨c, tHash, heq, -, hp, -⟩ := parseDigits_spec (n := 96) rfl
    (parsed_zero (skipNewlines (pcBuffer.drop (lineSize pcBuffer))))
  simp only [parseInfoFile, heq] at h
  split_ifs at h with hline hname hsize hdone
  · subst hdone
    obtain ⟨nl, htext, hno, hnl⟩ := split_line hline
    refine ⟨_, nl, _, tHash, (skipNewlines (pcBuffer.drop (lineSize pcBuffer))).drop 96,
      ⟨?_, ⟨?_, hno⟩, hnl, hp.isHex hsize.le⟩, ?_, (Prod.mk.inj h).2.symm⟩
    · rw [List.append_assoc, List.take_append_drop]
      exact htext
    · rw [List.length_take]
      omega
    · simpa using hsize
  all_goals exact absurd (Prod.mk.inj h).1 (by decide)

def IsString (buffer text : List UInt8) : Prop := text ++ [0] <+: buffer

theorem isString_withData (info : DeviceInfo) (name tHash : List UInt8) :
    IsString (DeviceInfo.withData info name tHash).acDataUri (0x2f :: name) := by
  refine ⟨info.acDataUri.drop (name.length + 2), ?_⟩
  simp [DeviceInfo.withData, writeUri]

/-- An info file is accepted, with the name and the hash it holds, exactly if
something follows the last digit. -/
theorem info_file_accepted_iff {name nl digits hash : List UInt8} (hname : IsName name)
    (hnl : IsNewlines nl) (hhex : IsHex digits hash) (rest : List UInt8) (info : DeviceInfo) :
    (∃ info', parseInfoFile (name ++ nl ++ digits ++ rest) info = (0, info') ∧
      IsString info'.acDataUri (0x2f :: name) ∧ info'.tHash = hash) ↔ rest ≠ [] := by
  rw [parseInfoFile_text ⟨rfl, hname, hnl, hhex⟩]
  constructor
  · rintro ⟨info', heq, -, -⟩ hrest
    rw [if_pos hrest] at heq
    exact absurd (Prod.mk.inj heq).1 (by decide)
  · intro hrest
    rw [if_neg hrest]
    exact ⟨_, rfl, isString_withData info name hash, rfl⟩

def exampleDigits : List UInt8 := List.replicate 96 0x30

theorem exampleDigits_hex : IsHex exampleDigits (List.replicate 48 0) where
  length_digits := by decide
  length_hash := by decide
  byte i hi := by
    have hdigit : ∀ j < 96, digitAt exampleDigits j = some 0 := by
      intro j hj
      rw [digitAt, exampleDigits, List.getD_replicate _ hj]
      rfl
    refine ⟨0, 0, hdigit _ (by omega), hdigit _ (by omega), ?_⟩
    rw [List.getD_replicate 0 hi]
    rfl

theorem isName_a : IsName [0x61] := by
  refine ⟨Nat.le_of_ble_eq_true rfl, ?_⟩
  rw [List.forall_mem_singleton]
  rfl

theorem isNewlines_lf : IsNewlines [0x0a] := by
  refine ⟨List.cons_ne_nil _ _, ?_⟩
  rw [List.forall_mem_singleton]
  rfl

theorem isNewlines_crlf : IsNewlines [0x0d, 0x0a] := by
  refine ⟨List.cons_ne_nil _ _, ?_⟩
  rw [List.forall_mem_cons, List.forall_mem_singleton]
  exact ⟨rfl, rfl⟩

theorem info_file_accepted_iff_newline :
    ∃ info', parseInfoFile ([0x61] ++ [0x0d, 0x0a] ++ exampleDigits ++ [0x0a]) .cleared = (0, info') ∧
      IsString info'.acDataUri [0x2f, 0x61] ∧ info'.tHash = List.replicate 48 0 :=
  (info_file_accepted_iff isName_a isNewlines_crlf exampleDigits_hex [0x0a] .cleared).mpr (by decide)

/-- A file that ends with the last digit is refused. -/
theorem complete_info_file_refused :
    ¬ ∀ name nl digits hash rest : List UInt8, IsName name → IsNewlines nl → IsHex digits hash →
      ∀ info, (parseInfoFile (name ++ nl ++ digits ++ rest) info).1 = 0 := by
  intro h
  have hok := h [0x61] [0x0a] exampleDigits (List.replicate 48 0) [] isName_a isNewlines_lf
    exampleDigits_hex .cleared
  revert hok
  decide

end FlashApp.InfoFile
