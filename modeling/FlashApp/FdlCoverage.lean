import FlashApp.Fdl
import FlashApp.WfpGood
import FlashApp.Loops
import Mathlib.Logic.Function.Iterate

namespace FlashApp.FdlCoverage

open Bytes Interaction Flasher Fdl While WfpGood

/-- One bit in the CRC unit, as `crc_gen_crc32b` configures it. The register is
shifted to the right, so the polynomial is applied with its bits reversed. -/
def crcShift (ulCrc : BitVec 32) : BitVec 32 :=
  if ulCrc.getLsbD 0 then ulCrc >>> 1 ^^^ 0xedb88320#32 else ulCrc >>> 1

def crcDataIn (ulCrc : BitVec 32) (b : UInt8) : BitVec 32 :=
  Nat.iterate crcShift 8 (ulCrc ^^^ b.toBitVec.setWidth 32)

def crc32 (bs : List UInt8) : Nat := (bs.foldl crcDataIn 0xffffffff#32 ^^^ 0xffffffff#32).toNat

/-- The loop of `crc_gen_crc32b`, with the addresses read so far. -/
structure CrcState where
  pucData : Nat
  ulCrc : BitVec 32
  fed : List Nat

def crcFeed (m : Memory) (s : CrcState) : CrcState where
  pucData := s.pucData + 1
  ulCrc := crcDataIn s.ulCrc (m s.pucData)
  fed := s.fed ++ [s.pucData]

/-- The addresses of the bytes fed to the CRC unit and the checksum. -/
def crcGenCrc32b (m : Memory) (pucData uiSizData : Nat) : Option (List Nat × Nat) := do
  let pucEnd := pucData + uiSizData
  let s ← whileDo (fun s => s.pucData < pucEnd) (crcFeed m) (uiSizData + 1) ⟨pucData, 0xffffffff#32, []⟩
  return (s.fed, (s.ulCrc ^^^ 0xffffffff#32).toNat)

/-- The loop feeds each byte of its area once, from the first to the last. -/
theorem crcGenCrc32b_eq (m : Memory) (pucData uiSizData : Nat) :
    crcGenCrc32b m pucData uiSizData =
      some (List.range' pucData uiSizData, crc32 (slice m pucData uiSizData)) := by
  have hloop := whileDo_total (c := fun s => decide (s.pucData < pucData + uiSizData)) (b := crcFeed m)
    (fun s => pucData ≤ s.pucData ∧ s.pucData ≤ pucData + uiSizData ∧
      s.fed = List.range' pucData (s.pucData - pucData) ∧
      s.ulCrc = (slice m pucData (s.pucData - pucData)).foldl crcDataIn 0xffffffff#32)
    (fun s => pucData + uiSizData - s.pucData) ?_
    (n := uiSizData + 1) (s := ⟨pucData, 0xffffffff#32, []⟩) ?_ (by simp)
  · obtain ⟨s, hs, ⟨hlo, hhi, hfed, hcrc⟩, hc⟩ := hloop
    have hend : s.pucData - pucData = uiSizData := by
      have hge := of_decide_eq_false hc
      omega
    rw [crcGenCrc32b, hs, Option.bind_eq_bind, Option.bind_some, hfed, hcrc, hend]
    rfl
  · rintro s ⟨hlo, hhi, hfed, hcrc⟩ hc
    have hlt := of_decide_eq_true hc
    obtain ⟨k, hk⟩ := Nat.exists_eq_add_of_le hlo
    have hnow : s.pucData - pucData = k := by omega
    have hnext : (crcFeed m s).pucData - pucData = k + 1 := by
      simp only [crcFeed]
      omega
    rw [hnow] at hfed hcrc
    rw [hnext]
    refine ⟨⟨?_, ?_, ?_, ?_⟩, ?_⟩
    · simp only [crcFeed]
      omega
    · simp only [crcFeed]
      omega
    · rw [crcFeed, hfed, hk, List.range'_1_concat]
    · rw [slice_add, List.foldl_append, crcFeed, hcrc, hk]
      rfl
    · simp only [crcFeed]
      omega
  · exact ⟨le_rfl, Nat.le_add_right _ _, by simp, by simp [slice]⟩

/-- The identity of the device in the buffer: manufacturer, device number,
hardware revision and serial number. -/
def identity (buf : Memory) : Nat × Nat × Nat × Nat :=
  (half buf 16, word buf 20, (buf 29).toNat, word buf 24)

/-- The identity is taken from the byte at this place of the buffer. -/
def Taken (a : Nat) : Prop := ∃ buf v, identity (Function.update buf a v) ≠ identity buf

def identityBytes : List Nat := [16, 17, 20, 21, 22, 23, 24, 25, 26, 27, 29]

theorem identity_congr {m m' : Memory} (h : ∀ a ∈ identityBytes, m a = m' a) : identity m = identity m' := by
  simp only [identityBytes, List.forall_mem_cons] at h
  obtain ⟨h16, h17, h20, h21, h22, h23, h24, h25, h26, h27, h29, -⟩ := h
  simp only [identity, half, word, add32, Nat.reduceAdd, Nat.reduceMod, Nat.reducePow, h16, h17, h20, h21, h22,
    h23, h24, h25, h26, h27, h29]

theorem taken_iff (a : Nat) : Taken a ↔ a ∈ identityBytes := by
  constructor
  · rintro ⟨buf, v, hne⟩
    by_contra hno
    apply hne
    apply identity_congr
    intro x hx
    exact Function.update_of_ne (ne_of_mem_of_not_mem hx hno) v buf
  · intro ha
    have hzero : ∀ a ∈ identityBytes, identity (Function.update (fun _ => 0) a 1) ≠ identity fun _ => 0 := by
      decide
    exact ⟨fun _ => 0, 1, hzero a ha⟩

/-- The checks of `readFDL`. -/
structure Valid (buf : Memory) : Prop where
  startToken : slice buf 0 12 = startToken
  endToken : slice buf (sizFdlHeader + sizFdlData + 4) 12 = endToken
  size : usLabelSize buf = usContentSize buf + sizFdlHeader + sizFdlFooter
  available : usLabelSize buf ≤ sizFdl
  checksum : crc32 (slice buf sizFdlHeader (usContentSize buf)) = ulChecksum buf

def identified (info : DeviceInfo) (buf : Memory) : DeviceInfo :=
  { info with
    ulManufacturer := (identity buf).1
    ulDeviceNr := (identity buf).2.1
    ulHwRev := (identity buf).2.2.1
    ulSerial := (identity buf).2.2.2 }

theorem checkFdl_valid {buf : Memory} (h : Valid buf) (info : DeviceInfo) :
    checkFdl crc32 buf info = (0, identified info buf) := by
  obtain ⟨hstart, hend, hsize, havail, hsum⟩ := h
  rw [checkFdl, if_neg (by simpa using hstart), if_neg (by simpa using hend), if_neg (by simpa using hsize),
    if_neg (by omega), if_neg (by simpa using hsum)]
  rfl

theorem checkFdl_not_valid {buf : Memory} (h : ¬ Valid buf) (info : DeviceInfo) :
    checkFdl crc32 buf info = (-1, info) := by
  unfold checkFdl
  split_ifs with hstart hend hsize havail hsum
  iterate 5 rfl
  exact absurd ⟨not_not.mp hstart, not_not.mp hend, not_not.mp hsize, not_lt.mp havail, not_not.mp hsum⟩ h

/-- The bytes fed to the CRC unit are in the content area, and the identity is
taken from them. -/
def Covered (buf : Memory) : Prop :=
  ∃ fed, crcGenCrc32b buf sizFdlHeader (usContentSize buf) = some (fed, ulChecksum buf) ∧
    (∀ a ∈ fed, sizFdlHeader ≤ a ∧ a < sizFdlHeader + sizFdlData) ∧ ∀ a, Taken a → a ∈ fed

theorem covered_iff {buf : Memory} (h : Valid buf) : Covered buf ↔ 14 ≤ usContentSize buf := by
  have hcrc := crcGenCrc32b_eq buf sizFdlHeader (usContentSize buf)
  rw [h.checksum] at hcrc
  have hsize := h.size
  have havail := h.available
  simp only [sizFdl, sizFdlHeader, sizFdlData, sizFdlFooter] at hsize havail
  constructor
  · rintro ⟨fed, hfed, -, hall⟩
    obtain ⟨rfl, -⟩ := Prod.mk.inj (Option.some.inj (hcrc.symm.trans hfed))
    have hlast := hall 29 ((taken_iff 29).mpr (by decide))
    rw [List.mem_range'_1, sizFdlHeader] at hlast
    omega
  · intro hge
    refine ⟨_, hcrc, ?_, ?_⟩
    · intro a ha
      rw [List.mem_range'_1, sizFdlHeader] at ha
      simp only [sizFdlHeader, sizFdlData]
      omega
    · intro a ha
      have hbound : ∀ a ∈ identityBytes, 16 ≤ a ∧ a < 30 := by decide
      have ha' := hbound a ((taken_iff a).mp ha)
      rw [List.mem_range'_1, sizFdlHeader]
      omega

/-- What `readFDL` has got from the flash. -/
def Content (t : List FlashEvent) (buf : Memory) : Prop :=
  ∃ tSpiInfo, ⟨.spiRead tSpiInfo 0xff0000 (0xff0000 + sizFdl), (.ok, buf)⟩ ∈ t

/-- An accepted FDL has its identity under the checksum. Otherwise the device
info is left alone. -/
structure Protected (t : List FlashEvent) (info : DeviceInfo) (iResult : Int) (info' : DeviceInfo) : Prop where
  accepted : iResult = 0 → ∃ buf, Content t buf ∧ info' = identified info buf ∧ Covered buf
  refused : iResult ≠ 0 → iResult = -1 ∧ info' = info

theorem protected_of_refused {t : List FlashEvent} {info : DeviceInfo} : Protected t info (-1) info :=
  ⟨by simp, fun _ => ⟨rfl, rfl⟩⟩

theorem content_iff {c : SpiConfiguration} {r r' : ConsoleappResult} {tSpiInfo : List UInt8} {buf buf' : Memory} :
    Content [⟨.spiDetect c, (r, tSpiInfo)⟩,
      ⟨.spiRead tSpiInfo 0xff0000 (0xff0000 + sizFdl), (r', buf)⟩] buf' ↔ r' = .ok ∧ buf = buf' := by
  constructor
  · rintro ⟨tSpiInfo', hmem⟩
    simp only [List.mem_cons, List.not_mem_nil, or_false] at hmem
    obtain hmem | hmem := hmem
    · cases hmem
    · cases hmem
      exact ⟨rfl, rfl⟩
  · rintro ⟨rfl, rfl⟩
    exact ⟨tSpiInfo, by simp⟩

/-- Without an FDL `readFDL` refuses. Otherwise it does what its checks say of
the one it has read. -/
theorem readFDL_cases {api : Headers} {crc : List UInt8 → Nat} {info : DeviceInfo} {t : List FlashEvent}
    {r : Int × DeviceInfo} (hr : Runs (readFDL api crc info) t r) :
    (r = (-1, info) ∧ ∀ buf, ¬ Content t buf) ∨
      ∃ buf, r = checkFdl crc buf info ∧ ∀ buf', Content t buf' ↔ buf = buf' := by
  simp only [readFDL, runs_bind, runs_perform, Prod.exists] at hr
  obtain ⟨res, tSpiInfo, _, t₁, rfl, rfl, hr⟩ := hr
  by_cases hdetect : res = .ok
  · simp only [hdetect, ↓reduceIte, runs_bind, runs_perform, Prod.exists] at hr
    obtain ⟨res', buf, _, t₂, rfl, rfl, hr⟩ := hr
    by_cases hread : res' = .ok
    · subst res res'
      obtain ⟨rfl, rfl⟩ := hr
      refine .inr ⟨buf, rfl, ?_⟩
      intro buf'
      exact content_iff.trans (and_iff_right rfl)
    · simp only [hread, ↓reduceIte] at hr
      obtain ⟨rfl, rfl⟩ := hr
      refine .inl ⟨rfl, ?_⟩
      intro buf' hc
      exact hread (content_iff.mp hc).1
  · simp only [hdetect, ↓reduceIte] at hr
    obtain ⟨rfl, rfl⟩ := hr
    refine .inl ⟨rfl, ?_⟩
    rintro buf' ⟨tSpiInfo', hmem⟩
    simp at hmem

/-- The identity is protected exactly if no FDL that passes the checks has less
than 14 bytes of content. -/
theorem identity_protected_iff {api : Headers} {info info' : DeviceInfo} {t : List FlashEvent} {iResult : Int}
    (hr : Runs (readFDL api crc32 info) t (iResult, info')) :
    Protected t info iResult info' ↔ ∀ buf, Content t buf → Valid buf → 14 ≤ usContentSize buf := by
  obtain ⟨hres, hno⟩ | ⟨buf, hres, hcontent⟩ := readFDL_cases hr
  · obtain ⟨rfl, rfl⟩ := Prod.mk.inj hres
    exact iff_of_true protected_of_refused fun buf hc => absurd hc (hno buf)
  by_cases hv : Valid buf
  · rw [checkFdl_valid hv] at hres
    obtain ⟨rfl, rfl⟩ := Prod.mk.inj hres
    constructor
    · rintro ⟨hacc, -⟩ buf' hc -
      obtain ⟨buf'', hc', -, hcov⟩ := hacc rfl
      obtain rfl := (hcontent buf').mp hc
      obtain rfl := (hcontent buf'').mp hc'
      exact (covered_iff hv).mp hcov
    · intro hge
      have hc := (hcontent buf).mpr rfl
      have hcov := (covered_iff hv).mpr (hge buf hc hv)
      exact ⟨fun _ => ⟨buf, hc, rfl, hcov⟩, by simp⟩
  · rw [checkFdl_not_valid hv] at hres
    obtain ⟨rfl, rfl⟩ := Prod.mk.inj hres
    refine iff_of_true protected_of_refused ?_
    intro buf' hc hv'
    obtain rfl := (hcontent buf').mp hc
    exact absurd hv' hv

def zeroFdl (label content : UInt8) (checksum : List UInt8) : Memory :=
  store (store (fun _ => 0) 0 (startToken ++ [label, 0, content, 0])) 980 (checksum ++ endToken)

def zeroFdlEvents (api : Headers) (buf : Memory) : List FlashEvent :=
  [⟨.spiDetect (spiConfiguration api 0 0), (.ok, [])⟩, ⟨.spiRead [] 0xff0000 (0xff0000 + sizFdl), (.ok, buf)⟩]

theorem runs_zeroFdl (api : Headers) {buf : Memory} (hv : Valid buf) :
    Runs (readFDL api crc32 .cleared) (zeroFdlEvents api buf) (0, identified .cleared buf) :=
  ⟨(.ok, []), _, rfl, (.ok, buf), _, rfl, rfl, (checkFdl_valid hv .cleared).symm⟩

theorem zeroFdl_valid : Valid (zeroFdl 46 14 [0xc7, 0x79, 0xbb, 0xd1]) := by
  refine ⟨?_, ?_, ?_, ?_, ?_⟩ <;> decide +kernel

theorem identity_protected_iff_zeroFdl :
    Protected (zeroFdlEvents exampleHeaders (zeroFdl 46 14 [0xc7, 0x79, 0xbb, 0xd1])) .cleared 0
      (identified .cleared (zeroFdl 46 14 [0xc7, 0x79, 0xbb, 0xd1])) := by
  apply (identity_protected_iff (runs_zeroFdl exampleHeaders zeroFdl_valid)).mpr
  intro buf hc _
  obtain ⟨-, rfl⟩ := content_iff.mp hc
  decide

/-- The checksum of no bytes at all is zero. -/
theorem emptyFdl_valid : Valid (zeroFdl 32 0 [0, 0, 0, 0]) := by
  refine ⟨?_, ?_, ?_, ?_, ?_⟩ <;> decide +kernel

theorem empty_content_accepted :
    ¬ ∀ (api : Headers) (info info' : DeviceInfo) (t : List FlashEvent) (iResult : Int),
      Runs (readFDL api crc32 info) t (iResult, info') → Protected t info iResult info' := by
  intro h
  obtain ⟨buf, hc, -, hcov⟩ := (h exampleHeaders .cleared _ _ 0 (runs_zeroFdl _ emptyFdl_valid)).accepted rfl
  obtain ⟨-, rfl⟩ := content_iff.mp hc
  exact absurd ((covered_iff emptyFdl_valid).mp hcov) (by decide)

end FlashApp.FdlCoverage
