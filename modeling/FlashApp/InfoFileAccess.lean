import FlashApp.InfoFileFormat

namespace FlashApp.InfoFile

open Fdl

def readAt (a : List UInt8) (i : Nat) : Option UInt8 := if i < a.length then some (a.getD i 0) else none

def writeAt (a : List UInt8) (i : Nat) (b : UInt8) : Option (List UInt8) :=
  if i < a.length then some (a.set i b) else none

def readRange (a : List UInt8) (i n : Nat) : Option (List UInt8) :=
  if i + n ≤ a.length then some ((a.drop i).take n) else none

def writeRange (a : List UInt8) (i : Nat) (bs : List UInt8) : Option (List UInt8) :=
  if i + bs.length ≤ a.length then some (a.take i ++ bs ++ a.drop (i + bs.length)) else none

def findNewline (pcBuffer : List UInt8) (pcCnt : Nat) : Option Nat :=
  if pcCnt < pcBuffer.length then do
    let c ← readAt pcBuffer pcCnt
    if isNewline c then return pcCnt else findNewline pcBuffer (pcCnt + 1)
  else return pcCnt
termination_by pcBuffer.length - pcCnt

def skipNewline (pcBuffer : List UInt8) (pcCnt : Nat) : Option Nat :=
  if pcCnt < pcBuffer.length then do
    let c ← readAt pcBuffer pcCnt
    if isNewline c then skipNewline pcBuffer (pcCnt + 1) else return pcCnt
  else return pcCnt
termination_by pcBuffer.length - pcCnt

def readDigits (pcBuffer : List UInt8) (pcCnt uiLineSize pucHash : Nat) (tHash : List UInt8) :
    Option (Nat × List UInt8) := do
  let uiInc := uiLineSize &&& 1
  let uiShift := (uiInc ^^^ 1) <<< 2
  let cDigit ← readAt pcBuffer (pcCnt + uiLineSize)
  match digitValue cDigit with
  | none => return (uiLineSize, tHash)
  | some value =>
    let ucData := UInt8.ofNat (value <<< uiShift)
    let ucHash ← readAt tHash pucHash
    let tHash ← writeAt tHash pucHash (ucHash ||| ucData)
    if uiLineSize + 1 < 96 then readDigits pcBuffer pcCnt (uiLineSize + 1) (pucHash + uiInc) tHash
    else return (uiLineSize + 1, tHash)
termination_by 96 - uiLineSize

/-- `parseInfoFile` with each of its accesses checked against the array it is
made to. The pointers are offsets in the buffer. -/
def parseInfoFileChecked (pcBuffer : List UInt8) (info : DeviceInfo) : Option (Int × DeviceInfo) := do
  let uiLineSize ← findNewline pcBuffer 0
  if uiLineSize < pcBuffer.length then
    if uiLineSize < 1024 - 1 then
      let acDataUri ← writeAt info.acDataUri 0 0x2f
      let name ← readRange pcBuffer 0 uiLineSize
      let acDataUri ← writeRange acDataUri 1 name
      let acDataUri ← writeAt acDataUri (uiLineSize + 1) 0x00
      let pcCnt ← skipNewline pcBuffer uiLineSize
      let tHash ← writeRange info.tHash 0 (List.replicate 48 0)
      let info := { info with acDataUri := acDataUri, tHash := tHash }
      if pcCnt + 96 < pcBuffer.length then
        let (uiLineSize, tHash) ← readDigits pcBuffer pcCnt 0 0 info.tHash
        let info := { info with tHash := tHash }
        if uiLineSize = 96 then return (0, info) else return (-1, info)
      else
        return (-1, info)
    else
      return (-1, info)
  else
    return (-1, info)

theorem readAt_of_lt {a : List UInt8} {i : Nat} (hi : i < a.length) : readAt a i = some (a.getD i 0) :=
  if_pos hi

theorem drop_eq_cons {a : List UInt8} {i : Nat} (hi : i < a.length) : a.drop i = a.getD i 0 :: a.drop (i + 1) := by
  rw [List.drop_eq_getElem_cons hi, List.getD_eq_getElem _ _ hi]

theorem findNewline_eq {pcBuffer : List UInt8} {pcCnt : Nat} (hcnt : pcCnt ≤ pcBuffer.length) :
    findNewline pcBuffer pcCnt = some (pcCnt + lineSize (pcBuffer.drop pcCnt)) := by
  induction hn : pcBuffer.length - pcCnt generalizing pcCnt with
  | zero =>
    rw [findNewline, if_neg (by omega), List.drop_of_length_le (by omega)]
    rfl
  | succ n ih =>
    have hlt : pcCnt < pcBuffer.length := by omega
    rw [findNewline, if_pos hlt, readAt_of_lt hlt, drop_eq_cons hlt, lineSize]
    cases hc : isNewline (pcBuffer.getD pcCnt 0) with
    | true => simp only [Option.bind_eq_bind, Option.bind_some, hc, ↓reduceIte, Option.pure_def, Nat.add_zero]
    | false =>
      simp only [Option.bind_eq_bind, Option.bind_some, hc, Bool.false_eq_true, ↓reduceIte]
      rw [ih (by omega) (by omega), Nat.add_comm (lineSize _) 1, Nat.add_assoc]

theorem skipNewline_eq {pcBuffer : List UInt8} {pcCnt : Nat} (hcnt : pcCnt ≤ pcBuffer.length) :
    ∃ k, skipNewline pcBuffer pcCnt = some k ∧ k ≤ pcBuffer.length ∧
      pcBuffer.drop k = skipNewlines (pcBuffer.drop pcCnt) := by
  induction hn : pcBuffer.length - pcCnt generalizing pcCnt with
  | zero =>
    rw [skipNewline, if_neg (by omega), List.drop_of_length_le (by omega)]
    exact ⟨pcCnt, rfl, hcnt, List.drop_of_length_le (by omega)⟩
  | succ n ih =>
    have hlt : pcCnt < pcBuffer.length := by omega
    rw [skipNewline, if_pos hlt, readAt_of_lt hlt, drop_eq_cons hlt, skipNewlines]
    cases hc : isNewline (pcBuffer.getD pcCnt 0) with
    | true =>
      simp only [Option.bind_eq_bind, Option.bind_some, ↓reduceIte, hc]
      exact ih (by omega) (by omega)
    | false =>
      simp only [Option.bind_eq_bind, Option.bind_some, hc, Bool.false_eq_true, ↓reduceIte]
      exact ⟨pcCnt, rfl, hcnt, drop_eq_cons hlt⟩

theorem getD_drop (a : List UInt8) (i j : Nat) : (a.drop i).getD j 0 = a.getD (i + j) 0 := by
  rw [List.getD_eq_getElem?_getD, List.getElem?_drop, List.getD_eq_getElem?_getD]

def hashStep (tHash : List UInt8) (k v : Nat) : List UInt8 :=
  tHash.set (k / 2) (tHash.getD (k / 2) 0 ||| UInt8.ofNat (v <<< (((k &&& 1) ^^^ 1) <<< 2)))

theorem half_add_odd (k : Nat) : k / 2 + (k &&& 1) = (k + 1) / 2 := by
  rw [Nat.and_one_is_mod]
  omega

theorem readDigits_step {pcBuffer tHash : List UInt8} {pcCnt k : Nat} (hread : pcCnt + k < pcBuffer.length)
    (hwrite : k / 2 < tHash.length) :
    readDigits pcBuffer pcCnt k (k / 2) tHash =
      match digitAt (pcBuffer.drop pcCnt) k with
      | none => some (k, tHash)
      | some v =>
        if k + 1 < 96 then readDigits pcBuffer pcCnt (k + 1) ((k + 1) / 2) (hashStep tHash k v)
        else some (k + 1, hashStep tHash k v) := by
  rw [readDigits, readAt_of_lt hread, digitAt, getD_drop]
  simp only [Option.bind_eq_bind, Option.bind_some, readAt_of_lt hwrite, writeAt, hwrite, ↓reduceIte,
    half_add_odd]
  rfl

theorem readDigits_eq {pcBuffer tHash : List UInt8} {pcCnt k n : Nat} (hsize : pcCnt + 96 < pcBuffer.length)
    (hlen : tHash.length = 48) (hn : k + (n + 1) = 96) :
    readDigits pcBuffer pcCnt k (k / 2) tHash =
      some (parseDigits (pcBuffer.drop pcCnt) (n + 1) k (k / 2) tHash) := by
  induction n generalizing k tHash with
  | zero =>
    rw [readDigits_step (by omega) (by omega), parseDigits, digitAt]
    cases digitValue ((pcBuffer.drop pcCnt).getD k 0) with
    | none => rfl
    | some v => simp only [if_neg (show ¬ k + 1 < 96 by omega), parseDigits, hashStep]
  | succ n ih =>
    rw [readDigits_step (by omega) (by omega), parseDigits, digitAt]
    cases digitValue ((pcBuffer.drop pcCnt).getD k 0) with
    | none => rfl
    | some v =>
      simp only [if_pos (show k + 1 < 96 by omega), half_add_odd]
      exact ih (by rw [hashStep, List.length_set, hlen]) (by omega)

theorem writeUri_eq (acDataUri name : List UInt8) (hname : name.length + 2 ≤ acDataUri.length) :
    ∃ uri₁ uri₂, writeAt acDataUri 0 0x2f = some uri₁ ∧ writeRange uri₁ 1 name = some uri₂ ∧
      writeAt uri₂ (name.length + 1) 0x00 = some (writeUri acDataUri name) := by
  obtain ⟨a, as, rfl⟩ : ∃ a as, acDataUri = a :: as := by
    cases acDataUri with
    | nil => simp at hname
    | cons a as => exact ⟨a, as, rfl⟩
  rw [List.length_cons] at hname
  have hlt : name.length < as.length := by omega
  have hname' : 1 + name.length ≤ (0x2f :: as).length := by
    rw [List.length_cons]
    omega
  refine ⟨0x2f :: as, 0x2f :: name ++ as.drop name.length, ?_, ?_, ?_⟩
  · simp [writeAt]
  · rw [writeRange, if_pos hname', Nat.add_comm 1]
    rfl
  · rw [writeAt, if_pos (by simp; omega), List.cons_append, List.set_cons_succ,
      List.set_append_right _ _ le_rfl, Nat.sub_self, drop_eq_cons hlt, List.set_cons_zero]
    rfl

/-- No access of `parseInfoFile` is outside of its array. -/
theorem parseInfoFileChecked_eq (pcBuffer : List UInt8) {info : DeviceInfo}
    (huri : info.acDataUri.length = 1024) (hhash : info.tHash.length = 48) :
    parseInfoFileChecked pcBuffer info = some (parseInfoFile pcBuffer info) := by
  have hfind : findNewline pcBuffer 0 = some (lineSize pcBuffer) := by
    rw [findNewline_eq (Nat.zero_le _), List.drop_zero, Nat.zero_add]
  simp only [parseInfoFileChecked, hfind, Option.bind_eq_bind, Option.bind_some, parseInfoFile]
  by_cases hline : lineSize pcBuffer < pcBuffer.length
  swap
  · rw [if_neg hline, if_neg hline]
    rfl
  by_cases hname : lineSize pcBuffer < 1024 - 1
  swap
  · rw [if_pos hline, if_neg hname, if_pos hline, if_neg hname]
    rfl
  have hlen : (pcBuffer.take (lineSize pcBuffer)).length = lineSize pcBuffer := by
    rw [List.length_take]
    omega
  have hrange : readRange pcBuffer 0 (lineSize pcBuffer) = some (pcBuffer.take (lineSize pcBuffer)) := by
    rw [readRange, if_pos (by omega), List.drop_zero]
  obtain ⟨uri₁, uri₂, hw₁, hw₂, hw₃⟩ := writeUri_eq info.acDataUri
    (pcBuffer.take (lineSize pcBuffer)) (by omega)
  rw [hlen] at hw₃
  obtain ⟨k, hskip, hk, hdrop⟩ := skipNewline_eq hline.le
  have hset : writeRange info.tHash 0 (List.replicate 48 0) = some (List.replicate 48 0) := by
    rw [writeRange, if_pos (by simp [hhash]), List.drop_of_length_le (by simp [hhash])]
    rfl
  have hsize : k + 96 < pcBuffer.length ↔ 96 < (pcBuffer.drop k).length := by
    rw [List.length_drop]
    omega
  simp only [hline, hname, ↓reduceIte, hrange, hw₁, hw₂, hw₃, hskip, hset, Option.bind_some, ← hdrop, hsize]
  by_cases hdigits : 96 < (pcBuffer.drop k).length
  · have hread := readDigits_eq (k := 0) (n := 95) (hsize.mpr hdigits) (List.length_replicate (a := 0)) rfl
    simp only [hdigits, ↓reduceIte]
    rw [hread]
    simp only [Option.bind_some]
    split_ifs <;> rfl
  · rw [if_neg hdigits, if_neg hdigits]
    rfl

/-- Every access is inside its array, and what is accepted is a name, all the
newlines behind it and a hash. -/
theorem info_file_parsed (pcBuffer : List UInt8) {info : DeviceInfo} (huri : info.acDataUri.length = 1024)
    (hhash : info.tHash.length = 48) :
    ∃ iResult info', parseInfoFileChecked pcBuffer info = some (iResult, info') ∧
      (iResult = 0 → ∃ name nl digits rest, pcBuffer = name ++ nl ++ digits ++ rest ∧ IsName name ∧
        IsNewlines nl ∧ (∀ c, (digits ++ rest).head? = some c → isNewline c = false) ∧
        IsString info'.acDataUri (0x2f :: name) ∧ IsHex digits info'.tHash) := by
  obtain ⟨iResult, info', hrun⟩ : ∃ iResult info', parseInfoFile pcBuffer info = (iResult, info') :=
    ⟨_, _, rfl⟩
  refine ⟨iResult, info', by rw [parseInfoFileChecked_eq pcBuffer huri hhash, hrun], ?_⟩
  rintro rfl
  obtain ⟨name, nl, digits, hash, rest, htext, -, rfl⟩ := text_of_parseInfoFile hrun
  exact ⟨name, nl, digits, rest, htext.text, htext.name, htext.newlines, htext.hex.head_not_newline rest,
    isString_withData info name hash, htext.hex⟩

theorem info_file_parsed_newline :
    ∃ info' digits, parseInfoFileChecked ([0x61] ++ [0x0a] ++ exampleDigits ++ [0x0a]) .cleared =
      some (0, info') ∧ IsHex digits info'.tHash := by
  obtain ⟨iResult, info', hrun, hok⟩ :=
    @info_file_parsed ([0x61] ++ [0x0a] ++ exampleDigits ++ [0x0a]) .cleared List.length_replicate
      List.length_replicate
  have hzero : iResult = 0 := by
    rw [parseInfoFileChecked_eq _ List.length_replicate List.length_replicate,
      parseInfoFile_text ⟨rfl, isName_a, isNewlines_lf, exampleDigits_hex⟩, if_neg (by decide)] at hrun
    exact (Prod.mk.inj (Option.some.inj hrun)).1.symm
  obtain ⟨name, nl, digits, rest, -, -, -, -, -, hhex⟩ := hok hzero
  exact ⟨info', digits, by rw [hrun, hzero], hhex⟩

end FlashApp.InfoFile
