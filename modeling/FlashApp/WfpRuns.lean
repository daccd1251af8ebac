import FlashApp.Wfp

namespace FlashApp.WfpRuns

open Bytes Interaction Flasher Wfp

abbrev areaEvent (uInfo : List UInt8) (off size : Nat) (r : ConsoleappResult) (a b : Nat) :
    FlashEvent := ⟨.spiGetEraseArea uInfo off (add32 off size), (r, a, b)⟩

abbrev checkEvent (uInfo : List UInt8) (a b : Nat) (r : ConsoleappResult) (msg : Nat) :
    FlashEvent := ⟨.spiIsErased uInfo a b, (r, msg)⟩

abbrev eraseEvent (uInfo : List UInt8) (a b : Nat) (r : ConsoleappResult) : FlashEvent :=
  ⟨.spiErase uInfo a b, r⟩

abbrev programEvent (uInfo : List UInt8) (off size ptr : Nat) (r : ConsoleappResult) :
    FlashEvent := ⟨.spiFlash uInfo off size ptr, r⟩

def status (r : ConsoleappResult) : Int := if r = .ok then 0 else -1

/-- Everything that making an area erased can do. -/
inductive EraseRun (uInfo : List UInt8) (a b : Nat) : List FlashEvent → Int → Prop
  | checkFails (code : Int) (msg : Nat) :
      EraseRun uInfo a b [checkEvent uInfo a b (.error code) msg] (-1)
  | clean : EraseRun uInfo a b [checkEvent uInfo a b .ok 0xff] 0
  | eraseFails (msg : Nat) (hmsg : msg ≠ 0xff) (code : Int) :
      EraseRun uInfo a b [checkEvent uInfo a b .ok msg, eraseEvent uInfo a b (.error code)] (-1)
  | notClean (msg : Nat) (hmsg : msg ≠ 0xff) (r : ConsoleappResult) (msg' : Nat)
      (hmsg' : msg' ≠ 0xff) :
      EraseRun uInfo a b [checkEvent uInfo a b .ok msg, eraseEvent uInfo a b .ok,
        checkEvent uInfo a b r msg'] (-1)
  | erased (msg : Nat) (hmsg : msg ≠ 0xff) (r : ConsoleappResult) :
      EraseRun uInfo a b [checkEvent uInfo a b .ok msg, eraseEvent uInfo a b .ok,
        checkEvent uInfo a b r 0xff] 0

theorem ensureErased_cases {uInfo : List UInt8} {a b : Nat} {t : List FlashEvent} {r : Int}
    (h : Runs (ensureErased uInfo a b) t r) : EraseRun uInfo a b t r := by
  simp only [ensureErased, runs_bind, runs_perform, Prod.exists] at h
  obtain ⟨rc, msg, _, t₁, rfl, rfl, h⟩ := h
  cases rc with
  | error code =>
    obtain ⟨rfl, rfl⟩ := h
    exact .checkFails code msg
  | ok =>
    by_cases hmsg : msg = 0xff
    · simp only [hmsg, ↓reduceIte, runs_pure] at h
      obtain ⟨rfl, rfl⟩ := h
      rw [hmsg]
      exact .clean
    · simp only [hmsg, ↓reduceIte, runs_bind, runs_perform] at h
      obtain ⟨re, _, t₂, rfl, rfl, h⟩ := h
      cases re with
      | error code =>
        obtain ⟨rfl, rfl⟩ := h
        exact .eraseFails msg hmsg code
      | ok =>
        simp only [↓reduceIte, runs_bind, runs_perform, Prod.exists] at h
        obtain ⟨rc', msg', _, t₃, rfl, rfl, h⟩ := h
        by_cases hmsg' : msg' = 0xff
        · simp only [hmsg', ↓reduceIte, runs_pure] at h
          obtain ⟨rfl, rfl⟩ := h
          rw [hmsg']
          exact .erased msg hmsg rc'
        · simp only [hmsg', ↓reduceIte, runs_pure] at h
          obtain ⟨rfl, rfl⟩ := h
          exact .notClean msg hmsg rc' msg' hmsg'

inductive SpiRun (uInfo : List UInt8) (off ptr size : Nat) : List FlashEvent → Int → Prop
  | noArea (code : Int) (a b : Nat) :
      SpiRun uInfo off ptr size [areaEvent uInfo off size (.error code) a b] (-1)
  | notErased (a b : Nat) {t : List FlashEvent} (ht : EraseRun uInfo a b t (-1)) :
      SpiRun uInfo off ptr size (areaEvent uInfo off size .ok a b :: t) (-1)
  | programmed (a b : Nat) {t : List FlashEvent} (ht : EraseRun uInfo a b t 0)
      (r : ConsoleappResult) :
      SpiRun uInfo off ptr size
        (areaEvent uInfo off size .ok a b :: t ++ [programEvent uInfo off size ptr r]) (status r)

theorem EraseRun.result_eq {uInfo : List UInt8} {a b : Nat} {t : List FlashEvent} {r : Int}
    (h : EraseRun uInfo a b t r) : r = 0 ∨ r = -1 := by
  cases h <;> simp

theorem flashSpi_cases {uInfo : List UInt8} {off ptr size : Nat} {t : List FlashEvent} {r : Int}
    (h : Runs (flashSpi uInfo off ptr size) t r) : SpiRun uInfo off ptr size t r := by
  simp only [flashSpi, runs_bind, runs_perform, Prod.exists] at h
  obtain ⟨ra, a, b, _, t₁, rfl, rfl, h⟩ := h
  cases ra with
  | error code =>
    obtain ⟨rfl, rfl⟩ := h
    exact .noArea code a b
  | ok =>
    simp only [↓reduceIte, runs_bind] at h
    obtain ⟨i, t₂, t₃, rfl, hi, h⟩ := h
    have hrun := ensureErased_cases hi
    rcases hrun.result_eq with rfl | rfl
    · simp only [↓reduceIte, runs_bind, runs_perform] at h
      obtain ⟨rp, _, t₄, rfl, rfl, h⟩ := h
      have hr : t₄ = [] ∧ r = status rp := by
        cases rp <;> simpa [status] using h
      obtain ⟨rfl, rfl⟩ := hr
      exact .programmed a b hrun rp
    · obtain ⟨rfl, rfl⟩ := h
      rw [List.append_nil]
      exact .notErased a b hrun

abbrev fileEvent (bus : Nat) (desc : DeviceDescription) (off ptr size : Nat) : FlashEvent :=
  ⟨.note (.flashDataFile bus desc off ptr size), ()⟩

inductive FileRun (api : Headers) (bus : Nat) (desc : DeviceDescription) (off ptr size : Nat) :
    List FlashEvent → Int → Prop
  | spi (hbus : bus = api.busSpi) {t : List FlashEvent} {r : Int}
      (ht : SpiRun desc.uInfo off ptr size t r) :
      FileRun api bus desc off ptr size (fileEvent bus desc off ptr size :: t) r
  | sdio (hbus : bus = api.busSdio) (r : ConsoleappResult) :
      FileRun api bus desc off ptr size
        [fileEvent bus desc off ptr size, ⟨.sdioWrite desc off size ptr, r⟩] (status r)
  | other (hbus : ¬ api.Supported bus) :
      FileRun api bus desc off ptr size [fileEvent bus desc off ptr size] (-1)

theorem busSpi_ne (api : Headers) :
    api.busSpi ≠ api.busParFlash ∧ api.busSpi ≠ api.busIFlash ∧ api.busSpi ≠ api.busSdio := by
  have h := api.distinct
  simp only [List.nodup_cons, List.mem_cons, List.not_mem_nil, or_false, not_or] at h
  exact ⟨Ne.symm h.1.1, h.2.1.1, h.2.1.2⟩

theorem busSdio_ne (api : Headers) :
    api.busSdio ≠ api.busParFlash ∧ api.busSdio ≠ api.busSpi ∧ api.busSdio ≠ api.busIFlash := by
  have h := api.distinct
  simp only [List.nodup_cons, List.mem_cons, List.not_mem_nil, or_false, not_or] at h
  exact ⟨Ne.symm h.1.2.2, Ne.symm h.2.1.2, Ne.symm h.2.2.1⟩

theorem flashDataFile_cases {api : Headers} {bus : Nat} {desc : DeviceDescription}
    {off ptr size : Nat} {t : List FlashEvent} {r : Int}
    (h : Runs (flashDataFile api bus desc off ptr size) t r) :
    FileRun api bus desc off ptr size t r := by
  simp only [flashDataFile, runs_bind, runs_perform] at h
  obtain ⟨_, _, t₁, rfl, rfl, h⟩ := h
  rw [List.singleton_append]
  by_cases hspi : bus = api.busSpi
  · subst bus
    simp only [(busSpi_ne api).1, ↓reduceIte] at h
    exact .spi rfl (flashSpi_cases h)
  by_cases hsdio : bus = api.busSdio
  · subst bus
    simp only [busSdio_ne api, ↓reduceIte, flashSdio, runs_bind, runs_perform] at h
    obtain ⟨rw', _, t₂, rfl, rfl, h⟩ := h
    have hr : t₂ = [] ∧ r = status rw' := by
      cases rw' <;> simpa [status] using h
    obtain ⟨rfl, rfl⟩ := hr
    exact .sdio rfl rw'
  · have hr : t₁ = [] ∧ r = -1 := by
      simpa only [hspi, hsdio, ↓reduceIte, ite_self, runs_pure] using h
    obtain ⟨rfl, rfl⟩ := hr
    exact .other (not_or.mpr ⟨hspi, hsdio⟩)

/-- The detect call for a bus, a unit and a chip select, with its answer. Only
the SPI call takes the unit and the chip select. -/
inductive DetectEvent (api : Headers) (bus unit cs : Nat) :
    FlashEvent → ConsoleappResult → List UInt8 → Prop
  | spi (hbus : bus = api.busSpi) (r : ConsoleappResult) (info : List UInt8) :
      DetectEvent api bus unit cs ⟨.spiDetect (spiConfiguration api unit cs), (r, info)⟩ r info
  | sdio (hbus : bus = api.busSdio) (r : ConsoleappResult) (info : List UInt8) :
      DetectEvent api bus unit cs ⟨.sdioDetectWrap, (r, info)⟩ r info

abbrev clearEvent (bus unit cs : Nat) : FlashEvent := ⟨.note (.clearDevice bus unit cs), ()⟩

inductive DetectRun (api : Headers) (bus unit cs : Nat) :
    List FlashEvent → Option DeviceDescription → Prop
  | found {e : FlashEvent} {info : List UInt8} (he : DetectEvent api bus unit cs e .ok info) :
      DetectRun api bus unit cs [clearEvent bus unit cs, e] (some (.detected api bus info))
  | missing {e : FlashEvent} {code : Int} {info : List UInt8}
      (he : DetectEvent api bus unit cs e (.error code) info) :
      DetectRun api bus unit cs [clearEvent bus unit cs, e] none
  | other (hbus : ¬ api.Supported bus) : DetectRun api bus unit cs [clearEvent bus unit cs] none

theorem detectDevice_cases {api : Headers} {bus unit cs : Nat} {t : List FlashEvent}
    {r : Option DeviceDescription} (h : Runs (detectDevice api bus unit cs) t r) :
    DetectRun api bus unit cs t r := by
  simp only [detectDevice, runs_bind, runs_perform] at h
  obtain ⟨_, _, t₁, rfl, rfl, h⟩ := h
  rw [List.singleton_append]
  by_cases hspi : bus = api.busSpi
  · subst bus
    simp only [(busSpi_ne api).1, ↓reduceIte, runs_bind, runs_perform, Prod.exists] at h
    obtain ⟨rd, info, _, t₂, rfl, rfl, h⟩ := h
    cases rd with
    | ok =>
      obtain ⟨rfl, rfl⟩ := h
      exact .found (.spi rfl .ok info)
    | error code =>
      obtain ⟨rfl, rfl⟩ := h
      exact .missing (.spi rfl (.error code) info)
  by_cases hsdio : bus = api.busSdio
  · subst bus
    simp only [busSdio_ne api, ↓reduceIte, runs_bind, runs_perform, Prod.exists] at h
    obtain ⟨rd, info, _, t₂, rfl, rfl, h⟩ := h
    cases rd with
    | ok =>
      obtain ⟨rfl, rfl⟩ := h
      exact .found (.sdio rfl .ok info)
    | error code =>
      obtain ⟨rfl, rfl⟩ := h
      exact .missing (.sdio rfl (.error code) info)
  · have hr : t₁ = [] ∧ r = none := by
      simpa only [hspi, hsdio, ↓reduceIte, ite_self, runs_pure] using h
    obtain ⟨rfl, rfl⟩ := hr
    exact .other (not_or.mpr ⟨hspi, hsdio⟩)

def SameDevice (s : WfpState) (bus unit cs : Nat) : Prop :=
  s.uiLastBus = bus ∧ s.uiLastUnit = unit ∧ s.uiLastCs = cs

inductive SelectRun (api : Headers) (s : WfpState) (bus unit cs : Nat) :
    List FlashEvent → Option WfpState → Prop
  | reuse (hs : SameDevice s bus unit cs) : SelectRun api s bus unit cs [] (some s)
  | detected (hs : ¬ SameDevice s bus unit cs) {t : List FlashEvent} {desc : DeviceDescription}
      (ht : DetectRun api bus unit cs t (some desc)) :
      SelectRun api s bus unit cs t (some (s.withDevice bus unit cs desc))
  | failed (hs : ¬ SameDevice s bus unit cs) {t : List FlashEvent}
      (ht : DetectRun api bus unit cs t none) : SelectRun api s bus unit cs t none

theorem selectDevice_cases {api : Headers} {s : WfpState} {bus unit cs : Nat} {t : List FlashEvent}
    {r : Option WfpState} (h : Runs (selectDevice api s bus unit cs) t r) :
    SelectRun api s bus unit cs t r := by
  unfold selectDevice at h
  split at h
  · rename_i hs
    obtain ⟨rfl, rfl⟩ := h
    exact .reuse hs
  · rename_i hs
    simp only [runs_bind] at h
    obtain ⟨o, t₁, t₂, rfl, ho, h⟩ := h
    cases o with
    | none =>
      obtain ⟨rfl, rfl⟩ := h
      rw [List.append_nil]
      exact .failed hs (detectDevice_cases ho)
    | some desc =>
      obtain ⟨rfl, rfl⟩ := h
      rw [List.append_nil]
      exact .detected hs (detectDevice_cases ho)

theorem FileRun.result_eq {api : Headers} {bus : Nat} {desc : DeviceDescription}
    {off ptr size : Nat} {t : List FlashEvent} {r : Int}
    (h : FileRun api bus desc off ptr size t r) : r = 0 ∨ r = -1 := by
  have hstatus : ∀ r, status r = 0 ∨ status r = -1 := by
    intro r
    cases r <;> simp [status]
  cases h with
  | spi _ ht =>
    cases ht with
    | noArea => exact .inr rfl
    | notErased => exact .inr rfl
    | programmed _ _ _ r => exact hstatus r
  | sdio _ r => exact hstatus r
  | other => exact .inr rfl

abbrev headEvent (cnt : Nat) : FlashEvent := ⟨.note (.loopHead cnt), ()⟩

abbrev chunkEvent (m : Memory) (cnt : Nat) : FlashEvent :=
  ⟨.note (.chunk (headerBus m cnt) (headerUnit m cnt) (headerCs m cnt) (headerOffset m cnt)
    (headerSize m cnt)), ()⟩

/-- The checks that the loop makes before it touches a device. -/
structure ChunkFits (m : Memory) (pucDataEnd cnt : Nat) : Prop where
  inside : cnt < pucDataEnd
  header : add32 cnt 12 ≤ pucDataEnd
  data : add32 (add32 cnt 11) (headerSize m cnt) ≤ pucDataEnd

def nextCnt (m : Memory) (cnt : Nat) : Nat := add32 (add32 cnt 11) (headerSize m cnt)

/-- Everything that one round of the chunk loop can do. -/
inductive ChunkRun (api : Headers) (m : Memory) (pucDataEnd : Nat) (s : WfpState) :
    List FlashEvent → WfpState ⊕ Int → Prop
  | done (h : ¬ s.pucDataCnt < pucDataEnd) :
      ChunkRun api m pucDataEnd s [headEvent s.pucDataCnt] (.inr s.iResult)
  | noHeader (h : s.pucDataCnt < pucDataEnd) (h' : pucDataEnd < add32 s.pucDataCnt 12) :
      ChunkRun api m pucDataEnd s [headEvent s.pucDataCnt] (.inr (-1))
  | noData (h : s.pucDataCnt < pucDataEnd) (h' : add32 s.pucDataCnt 12 ≤ pucDataEnd)
      (h'' : pucDataEnd < nextCnt m s.pucDataCnt) :
      ChunkRun api m pucDataEnd s [headEvent s.pucDataCnt, chunkEvent m s.pucDataCnt] (.inr (-1))
  | noDevice (h : ChunkFits m pucDataEnd s.pucDataCnt) {t : List FlashEvent}
      (ht : SelectRun api s (headerBus m s.pucDataCnt) (headerUnit m s.pucDataCnt)
        (headerCs m s.pucDataCnt) t none) :
      ChunkRun api m pucDataEnd s
        (headEvent s.pucDataCnt :: chunkEvent m s.pucDataCnt :: t) (.inr (-1))
  | flashed (h : ChunkFits m pucDataEnd s.pucDataCnt) {t u : List FlashEvent} {s' : WfpState}
      (ht : SelectRun api s (headerBus m s.pucDataCnt) (headerUnit m s.pucDataCnt)
        (headerCs m s.pucDataCnt) t (some s'))
      (hu : FileRun api (headerBus m s.pucDataCnt) s'.tDeviceDesc (headerOffset m s.pucDataCnt)
        (add32 s.pucDataCnt 11) (headerSize m s.pucDataCnt) u 0) :
      ChunkRun api m pucDataEnd s
        (headEvent s.pucDataCnt :: chunkEvent m s.pucDataCnt :: (t ++ u))
        (.inl { s' with pucDataCnt := nextCnt m s.pucDataCnt, iResult := 0 })
  | failed (h : ChunkFits m pucDataEnd s.pucDataCnt) {t u : List FlashEvent} {s' : WfpState}
      (ht : SelectRun api s (headerBus m s.pucDataCnt) (headerUnit m s.pucDataCnt)
        (headerCs m s.pucDataCnt) t (some s'))
      (hu : FileRun api (headerBus m s.pucDataCnt) s'.tDeviceDesc (headerOffset m s.pucDataCnt)
        (add32 s.pucDataCnt 11) (headerSize m s.pucDataCnt) u (-1)) :
      ChunkRun api m pucDataEnd s
        (headEvent s.pucDataCnt :: chunkEvent m s.pucDataCnt :: (t ++ u)) (.inr (-1))

theorem processChunk_cases {api : Headers} {m : Memory} {pucDataEnd : Nat} {s : WfpState}
    {t : List FlashEvent} {r : WfpState ⊕ Int} (h : Runs (processChunk api m pucDataEnd s) t r) :
    ChunkRun api m pucDataEnd s t r := by
  simp only [processChunk, runs_bind, runs_perform] at h
  obtain ⟨_, _, t₁, rfl, rfl, h⟩ := h
  rw [List.singleton_append]
  by_cases hin : s.pucDataCnt < pucDataEnd
  swap
  · simp only [hin, ↓reduceIte, runs_pure] at h
    obtain ⟨rfl, rfl⟩ := h
    exact .done hin
  by_cases hhd : add32 s.pucDataCnt 12 > pucDataEnd
  · simp only [hin, hhd, ↓reduceIte, runs_pure] at h
    obtain ⟨rfl, rfl⟩ := h
    exact .noHeader hin hhd
  simp only [hin, hhd, ↓reduceIte, runs_bind, runs_perform] at h
  obtain ⟨_, _, t₂, rfl, rfl, h⟩ := h
  rw [List.singleton_append]
  by_cases hdt : add32 (add32 s.pucDataCnt 11) (headerSize m s.pucDataCnt) > pucDataEnd
  · simp only [hdt, ↓reduceIte, runs_pure] at h
    obtain ⟨rfl, rfl⟩ := h
    exact .noData hin (by omega) hdt
  simp only [hdt, ↓reduceIte, runs_bind] at h
  obtain ⟨o, t₃, t₄, rfl, ho, h⟩ := h
  have hfits : ChunkFits m pucDataEnd s.pucDataCnt := ⟨hin, by omega, by omega⟩
  have hsel := selectDevice_cases ho
  cases o with
  | none =>
    obtain ⟨rfl, rfl⟩ := h
    rw [List.append_nil]
    exact .noDevice hfits hsel
  | some s' =>
    simp only [runs_bind] at h
    obtain ⟨i, t₅, t₆, rfl, hi, h⟩ := h
    have hfile := flashDataFile_cases hi
    rcases hfile.result_eq with rfl | rfl
    · obtain ⟨rfl, rfl⟩ := h
      rw [List.append_nil]
      exact .flashed hfits hsel hfile
    · obtain ⟨rfl, rfl⟩ := h
      rw [List.append_nil]
      exact .failed hfits hsel hfile

theorem processWfp_cases {api : Headers} {m : Memory} {img : WfpImage} {n : Nat}
    {t : List FlashEvent} {r : Option Int} (h : Runs (processWfp api m img n) t r) :
    (t = [] ∧ r = some (-1)) ∨
    (add32 img.pucWfpImage 4 ≤ add32 img.pucWfpImage img.sizWfpImage ∧
      hasMagic m img.pucWfpImage ∧
      Runs (loop (processChunk api m (add32 img.pucWfpImage img.sizWfpImage)) n
        (initialState api (add32 img.pucWfpImage 4))) t r) := by
  unfold processWfp at h
  simp only at h
  split at h
  · exact .inl h
  · rename_i hsize
    split at h
    · rename_i hmagic
      exact .inr ⟨by omega, hmagic, h⟩
    · exact .inl h

inductive IsDetectCall : FlashEvent → Prop
  | spi (cfg : SpiConfiguration) (r : ConsoleappResult × List UInt8) : IsDetectCall ⟨.spiDetect cfg, r⟩
  | sdio (r : ConsoleappResult × List UInt8) : IsDetectCall ⟨.sdioDetectWrap, r⟩

inductive IsFlashCall : FlashEvent → Prop
  | area (info : List UInt8) (a b : Nat) (r : ConsoleappResult × Nat × Nat) :
      IsFlashCall ⟨.spiGetEraseArea info a b, r⟩
  | check (info : List UInt8) (a b : Nat) (r : ConsoleappResult × Nat) :
      IsFlashCall ⟨.spiIsErased info a b, r⟩
  | erase (info : List UInt8) (a b : Nat) (r : ConsoleappResult) :
      IsFlashCall ⟨.spiErase info a b, r⟩
  | program (info : List UInt8) (a b c : Nat) (r : ConsoleappResult) :
      IsFlashCall ⟨.spiFlash info a b c, r⟩
  | write (desc : DeviceDescription) (a b c : Nat) (r : ConsoleappResult) :
      IsFlashCall ⟨.sdioWrite desc a b c, r⟩

theorem EraseRun.calls {uInfo : List UInt8} {a b : Nat} {t : List FlashEvent} {r : Int}
    (h : EraseRun uInfo a b t r) : ∀ e ∈ t, IsFlashCall e := by
  cases h with
  | checkFails => simp [IsFlashCall.check]
  | clean => simp [IsFlashCall.check]
  | eraseFails => simp [IsFlashCall.check, IsFlashCall.erase]
  | notClean => simp [IsFlashCall.check, IsFlashCall.erase]
  | erased => simp [IsFlashCall.check, IsFlashCall.erase]

theorem FileRun.trace_eq {api : Headers} {bus : Nat} {desc : DeviceDescription}
    {off ptr size : Nat} {t : List FlashEvent} {r : Int}
    (h : FileRun api bus desc off ptr size t r) :
    ∃ u, t = fileEvent bus desc off ptr size :: u ∧ ∀ e ∈ u, IsFlashCall e := by
  cases h with
  | spi _ ht =>
    refine ⟨_, rfl, ?_⟩
    cases ht with
    | noArea =>
      rw [List.forall_mem_singleton]
      exact .area _ _ _ _
    | notErased a b he =>
      rw [List.forall_mem_cons]
      exact ⟨.area _ _ _ _, he.calls⟩
    | programmed a b he r =>
      rw [List.forall_mem_append, List.forall_mem_cons, List.forall_mem_singleton]
      exact ⟨⟨.area _ _ _ _, he.calls⟩, .program _ _ _ _ _⟩
  | sdio =>
    refine ⟨_, rfl, ?_⟩
    rw [List.forall_mem_singleton]
    exact .write _ _ _ _ _
  | other => exact ⟨[], rfl, by simp⟩

/-- What holds of its own call and of the calls for a detected device holds of
all that `flashDataFile` does. -/
theorem FileRun.forall_mem {api : Headers} {bus : Nat} {desc : DeviceDescription}
    {off ptr size : Nat} {t : List FlashEvent} {r : Int} {p : FlashEvent → Prop}
    (h : FileRun api bus desc off ptr size t r) (hcall : ∀ e, IsFlashCall e → p e)
    (hfile : p (fileEvent bus desc off ptr size)) : ∀ e ∈ t, p e := by
  obtain ⟨u, rfl, hu⟩ := h.trace_eq
  rw [List.forall_mem_cons]
  exact ⟨hfile, fun e he => hcall e (hu e he)⟩

theorem DetectEvent.isDetectCall {api : Headers} {bus unit cs : Nat} {e : FlashEvent}
    {r : ConsoleappResult} {info : List UInt8} (h : DetectEvent api bus unit cs e r info) :
    IsDetectCall e := by
  cases h with
  | spi => exact .spi _ _
  | sdio => exact .sdio _

/-- What holds of clearing the device and of the detect calls holds of all
that selecting a device does. -/
theorem SelectRun.forall_mem {api : Headers} {s : WfpState} {bus unit cs : Nat}
    {t : List FlashEvent} {r : Option WfpState} {p : FlashEvent → Prop}
    (h : SelectRun api s bus unit cs t r) (hcall : ∀ e, IsDetectCall e → p e)
    (hclear : p (clearEvent bus unit cs)) : ∀ e ∈ t, p e := by
  have hdet : ∀ {d}, DetectRun api bus unit cs t d → ∀ e ∈ t, p e := by
    intro d hd
    cases hd with
    | found he | missing he =>
      rw [List.forall_mem_cons, List.forall_mem_singleton]
      exact ⟨hclear, hcall _ he.isDetectCall⟩
    | other =>
      rw [List.forall_mem_singleton]
      exact hclear
  cases h with
  | reuse => simp
  | detected _ ht => exact hdet ht
  | failed _ ht => exact hdet ht

theorem processWfp_of_loop {api : Headers} {m : Memory} {img : WfpImage} {n : Nat}
    {t : List FlashEvent} {r : Option Int}
    (hsize : add32 img.pucWfpImage 4 ≤ add32 img.pucWfpImage img.sizWfpImage)
    (hmagic : hasMagic m img.pucWfpImage)
    (h : Runs (loop (processChunk api m (add32 img.pucWfpImage img.sizWfpImage)) n
      (initialState api (add32 img.pucWfpImage 4))) t r) : Runs (processWfp api m img n) t r := by
  unfold processWfp
  simp only [hmagic, ↓reduceIte, gt_iff_lt, if_neg (Nat.not_lt.mpr hsize)]
  exact h

/-- The last used device is on a supported bus, or there is none yet. -/
def LastSupported (api : Headers) (s : WfpState) : Prop :=
  s.uiLastBus = 0xffffffff ∨ api.Supported s.uiLastBus

theorem DetectEvent.supported {api : Headers} {bus unit cs : Nat} {e : FlashEvent}
    {r : ConsoleappResult} {info : List UInt8} (h : DetectEvent api bus unit cs e r info) :
    api.Supported bus := by
  cases h with
  | spi hbus => exact .inl hbus
  | sdio hbus => exact .inr hbus

theorem select_supported {api : Headers} {s s' : WfpState} {bus unit cs : Nat}
    {t : List FlashEvent} (h : SelectRun api s bus unit cs t (some s')) (hb : bus < 2 ^ 8)
    (hs : LastSupported api s) : api.Supported bus ∧ LastSupported api s' := by
  cases h with
  | reuse hd =>
    refine ⟨?_, hs⟩
    rcases hs with hs | hs
    · exact absurd (hs.symm.trans hd.1) (by omega)
    · rwa [← hd.1]
  | detected _ ht =>
    cases ht with
    | found he => exact ⟨he.supported, .inr he.supported⟩

theorem headerBus_lt (m : Memory) (a : Nat) : headerBus m a < 2 ^ 8 := (m a).toNat_lt

end FlashApp.WfpRuns
