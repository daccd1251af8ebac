import FlashApp.WfpRuns

namespace FlashApp.WfpGood

open Bytes Interaction Flasher Wfp WfpRuns

/-- The library does what it is asked for, and every area is found erased. -/
def Good : FlashEvent → Prop
  | ⟨.spiIsErased _ _ _, r⟩ => r = (.ok, 0xff)
  | e => ¬ Failed e

section GoodEvents

variable {r : ConsoleappResult} {info : List UInt8} {a b c : Nat} {desc : DeviceDescription}

theorem ne_error_iff : (∀ code, r ≠ .error code) ↔ r = .ok := by
  cases r <;> simp

@[simp] theorem good_spiDetect {cfg : SpiConfiguration} {v : List UInt8} :
    Good ⟨.spiDetect cfg, (r, v)⟩ ↔ r = .ok := by
  simpa [Good, Failed, result] using ne_error_iff

@[simp] theorem good_sdioDetectWrap {v : List UInt8} :
    Good ⟨.sdioDetectWrap, (r, v)⟩ ↔ r = .ok := by
  simpa [Good, Failed, result] using ne_error_iff

@[simp] theorem good_spiGetEraseArea {v : Nat × Nat} :
    Good ⟨.spiGetEraseArea info a b, (r, v)⟩ ↔ r = .ok := by
  simpa [Good, Failed, result] using ne_error_iff

@[simp] theorem good_spiIsErased {v : Nat} :
    Good ⟨.spiIsErased info a b, (r, v)⟩ ↔ r = .ok ∧ v = 0xff := Prod.mk_inj

@[simp] theorem good_spiErase : Good ⟨.spiErase info a b, r⟩ ↔ r = .ok := by
  simpa [Good, Failed, result] using ne_error_iff

@[simp] theorem good_spiFlash : Good ⟨.spiFlash info a b c, r⟩ ↔ r = .ok := by
  simpa [Good, Failed, result] using ne_error_iff

@[simp] theorem good_sdioWrite : Good ⟨.sdioWrite desc a b c, r⟩ ↔ r = .ok := by
  simpa [Good, Failed, result] using ne_error_iff

@[simp] theorem good_note {n : Note} {u : Unit} : Good ⟨.note n, u⟩ := by
  simp [Good, Failed, result]

end GoodEvents

def goodOracle : Oracle Call Answer
  | _, .spiDetect _ | _, .sdioDetectWrap => (.ok, [])
  | _, .spiRead _ _ _ => (.ok, fun _ => 0)
  | _, .spiGetEraseArea _ a b => (.ok, a, b)
  | _, .spiIsErased _ _ _ => (.ok, 0xff)
  | _, .spiErase _ _ _ | _, .spiFlash _ _ _ _ | _, .sdioWrite _ _ _ _ => .ok
  | _, .note _ => ()

def exampleHeaders : Headers where
  busParFlash := 0
  busSpi := 1
  busIFlash := 2
  busSdio := 3
  distinct := by decide
  sizInfo := 4
  sizDeviceDescription := 20
  flasherInterfaceVersion := 3
  mskSqiCfgIdle := 0

def imageMemory (bs : List UInt8) : Memory := fun a => bs.getD (a - 0x40000000) 0

theorem good_goodOracle (h : List FlashEvent) (c : Call) : Good ⟨c, goodOracle h c⟩ := by
  cases c <;> simp [Good, goodOracle, Failed, result]

theorem exec_good {α : Type} (p : FlashProg α) : ∀ e ∈ (exec goodOracle p []).1, Good e := by
  intro e he
  obtain ⟨h, ha⟩ := exec_answers goodOracle p [] e he
  obtain ⟨c, r⟩ := e
  rw [show r = goodOracle h c from ha]
  exact good_goodOracle h c

theorem good_select {api : Headers} {s : WfpState} {bus unit cs : Nat} {t : List FlashEvent}
    {r : Option WfpState} (h : SelectRun api s bus unit cs t r) (hg : ∀ e ∈ t, Good e)
    (hbus : api.Supported bus) : r ≠ none := by
  cases h with
  | reuse => simp
  | detected => simp
  | failed hs ht =>
    cases ht with
    | missing he => cases he <;> simp at hg
    | other h => exact absurd hbus h

/-- The one program operation for a chunk when the library succeeds. -/
def programCall (api : Headers) (bus : Nat) (desc : DeviceDescription) (off ptr size : Nat) : Call :=
  if bus = api.busSpi then .spiFlash desc.uInfo off size ptr else .sdioWrite desc off size ptr

/-- A successful `flashDataFile` ends with its program operation; the calls
before it are no program operations. -/
theorem good_file {api : Headers} {bus : Nat} {desc : DeviceDescription} {off ptr size : Nat}
    {t : List FlashEvent} {r : Int} (h : FileRun api bus desc off ptr size t r)
    (hg : ∀ e ∈ t, Good e) (hbus : api.Supported bus) :
    r = 0 ∧ ∃ u e, t = fileEvent bus desc off ptr size :: u ++ [e] ∧
      e.1 = programCall api bus desc off ptr size ∧ ∀ e ∈ u, ¬ e.1.EraseOrProgram := by
  cases h with
  | spi hb ht =>
    cases ht with
    | noArea => simp at hg
    | notErased a b he => cases he <;> simp_all
    | programmed a b he r =>
      cases he with
      | clean =>
        obtain rfl : r = .ok := by simpa using hg
        refine ⟨rfl, [areaEvent desc.uInfo off size .ok a b, checkEvent desc.uInfo a b .ok 0xff],
          programEvent desc.uInfo off size ptr .ok, rfl, by simp [programCall, hb], ?_⟩
        simp [Call.EraseOrProgram]
      | erased => simp_all
  | sdio hb r =>
    obtain rfl : r = .ok := by simpa using hg
    have hne : bus ≠ api.busSpi := hb ▸ (busSdio_ne api).2.1
    exact ⟨rfl, [], _, rfl, by simp [programCall, hne], by simp⟩
  | other hb => exact absurd hbus hb

/-- When the library succeeds, a chunk on a supported bus that passes the
checks is flashed with one program operation, and the loop goes on behind it. -/
theorem good_chunk {api : Headers} {m : Memory} {pucDataEnd : Nat} {s : WfpState}
    {t : List FlashEvent} {r : WfpState ⊕ Int} (h : ChunkRun api m pucDataEnd s t r)
    (hg : ∀ e ∈ t, Good e) (hfits : ChunkFits m pucDataEnd s.pucDataCnt)
    (hbus : api.Supported (headerBus m s.pucDataCnt)) :
    ∃ s' u v e, r = .inl s' ∧ s'.pucDataCnt = nextCnt m s.pucDataCnt ∧ s'.iResult = 0 ∧
      t = u ++ fileEvent (headerBus m s.pucDataCnt) s'.tDeviceDesc (headerOffset m s.pucDataCnt)
          (add32 s.pucDataCnt 11) (headerSize m s.pucDataCnt) :: v ++ [e] ∧
      e.1 = programCall api (headerBus m s.pucDataCnt) s'.tDeviceDesc
        (headerOffset m s.pucDataCnt) (add32 s.pucDataCnt 11) (headerSize m s.pucDataCnt) ∧
      (∀ e ∈ u, ¬ e.1.EraseOrProgram) ∧ ∀ e ∈ v, ¬ e.1.EraseOrProgram := by
  cases h with
  | done h => exact absurd hfits.inside h
  | noHeader _ h => exact absurd hfits.header (by omega)
  | noData _ _ h => exact absurd hfits.data (by unfold nextCnt at h; omega)
  | noDevice _ ht => exact absurd rfl (good_select ht (fun e he => hg e (by simp [he])) hbus)
  | failed _ _ hu =>
    exact absurd (good_file hu (fun e he => hg e (by simp [he])) hbus).1 (by decide)
  | @flashed _ tsel _ s' ht hu =>
    obtain ⟨-, v, e, rfl, he, hv⟩ := good_file hu (fun e he => hg e (by simp [he])) hbus
    refine ⟨_, headEvent s.pucDataCnt :: chunkEvent m s.pucDataCnt :: tsel, v, e, rfl, rfl, rfl,
      ?_, he, ?_, hv⟩
    · simp only [List.cons_append, List.append_assoc]
    · rw [List.forall_mem_cons, List.forall_mem_cons]
      exact ⟨by simp [Call.EraseOrProgram], by simp [Call.EraseOrProgram],
        ht.forall_mem (fun e he => by cases he <;> simp [Call.EraseOrProgram]) (by simp [Call.EraseOrProgram])⟩

end FlashApp.WfpGood
