import FlashApp.MainDownload

namespace FlashApp.MainRuns

open Bytes Interaction Flasher Wfp Fdl InfoFile Main MainDownload

abbrev messageEvent (m : Message) (i : Int) : MainEvent := ⟨.sendMessage m, i⟩

abbrev timeEvent (ulTime : Nat) : MainEvent := ⟨.systimeGetMs, ulTime⟩

abbrev noteEvent (n : MainNote) : MainEvent := ⟨.note n, ()⟩

abbrev blinkEvent (code : BlinkCode) : MainEvent := ⟨.rdyRunBlinki code, ()⟩

def startMessage (info : DeviceInfo) (pcId : MessageId) : Message :=
  .start pcId info.ulManufacturer info.ulDeviceNr info.ulHwRev info.ulSerial

def endMessage (info : DeviceInfo) (pcId : MessageId) (iResult : Int) (pcMessage : String)
    (ulDuration : Nat) : Message :=
  .stop pcId info.ulManufacturer info.ulDeviceNr info.ulHwRev info.ulSerial (iResult = 0) ulDuration
    pcMessage

def resultMessage (info : DeviceInfo) (iResult : Int) (pcMessage : String)
    (ulDurationDownload ulDurationFlash : Nat) : Message :=
  .result info.ulManufacturer info.ulDeviceNr info.ulHwRev info.ulSerial info.acDataUri (iResult = 0)
    ulDurationDownload ulDurationFlash pcMessage

theorem runs_generateStartMessage {info : DeviceInfo} {pcId : MessageId} {t : List MainEvent}
    {x : Unit} :
    Runs (generateStartMessage info pcId) t x ↔
      ∃ i, t = [messageEvent (startMessage info pcId) i] := by
  simp only [generateStartMessage, runs_bind, runs_perform, runs_pure]
  constructor
  · rintro ⟨i, _, _, rfl, rfl, rfl, -⟩
    exact ⟨i, rfl⟩
  · rintro ⟨i, rfl⟩
    exact ⟨i, _, [], rfl, rfl, rfl, trivial⟩

theorem runs_generateEndMessage {info : DeviceInfo} {pcId : MessageId} {iResult : Int}
    {pcMessage : String} {ulDuration : Nat} {t : List MainEvent} {x : Unit} :
    Runs (generateEndMessage info pcId iResult pcMessage ulDuration) t x ↔
      ∃ i, t = [messageEvent (endMessage info pcId iResult pcMessage ulDuration) i] := by
  simp only [generateEndMessage, runs_bind, runs_perform, runs_pure]
  constructor
  · rintro ⟨i, _, _, rfl, rfl, rfl, -⟩
    exact ⟨i, rfl⟩
  · rintro ⟨i, rfl⟩
    exact ⟨i, _, [], rfl, rfl, rfl, trivial⟩

theorem runs_duration {ulTimeStart d : Nat} {t : List MainEvent} :
    Runs (duration ulTimeStart) t d ↔
      ∃ ulTime, t = [timeEvent ulTime] ∧ d = sub32 ulTime ulTimeStart := by
  simp only [duration, runs_bind, runs_perform, runs_pure]
  constructor
  · rintro ⟨ulTime, _, _, rfl, rfl, rfl, rfl⟩
    exact ⟨ulTime, rfl, rfl⟩
  · rintro ⟨ulTime, rfl, rfl⟩
    exact ⟨ulTime, _, [], rfl, rfl, rfl, rfl⟩

/-- Everything that `getDeviceInfo` can do. -/
inductive InfoRun (n : Nat) (info : DeviceInfo) :
    List MainEvent → Option (Int × DeviceInfo × Memory) → Prop
  | waiting {t : List MainEvent} (ht : ∀ e ∈ t, Downloading e.1) (ha : ¬ Answered n t) :
      InfoRun n info t none
  | failed {t : List MainEvent} (ht : ∀ e ∈ t, Downloading e.1) (mem : Memory) :
      InfoRun n info t (some (-1, info, mem))
  | parsed {t : List MainEvent} (ht : ∀ e ∈ t, Downloading e.1) {size : Nat} {tMyHash : List UInt8}
      (hd : Completed 2048 t size tMyHash) (iResult : Int) (info' : DeviceInfo) (mem : Memory) :
      InfoRun n info (t ++ [noteEvent (.parseInfoFile iResult info'.tHash)])
        (some (iResult, info', mem))

theorem getDeviceInfo_cases {plat : Platform} {mem : Memory} {info : DeviceInfo} {n : Nat}
    {t : List MainEvent} {r : Option (Int × DeviceInfo × Memory)}
    (h : Runs (getDeviceInfo plat mem info n) t r) : InfoRun n info t r := by
  simp only [getDeviceInfo, runs_bind] at h
  obtain ⟨x, t₁, t₂, rfl, h₁, h₂⟩ := h
  have ht := (calls_httpDownload _ _ _ _ _ _).forall_mem h₁
  obtain ⟨rfl, ha⟩ | ⟨mem', rfl⟩ | ⟨mem', size, tMyHash, rfl, hd⟩ :=
    httpDownload_cases plat.info_fits h₁
  · obtain ⟨rfl, rfl⟩ := h₂
    rw [List.append_nil]
    exact .waiting ht ha
  · obtain ⟨rfl, rfl⟩ := h₂
    rw [List.append_nil]
    exact .failed ht mem'
  · simp only [runs_bind, runs_perform] at h₂
    obtain ⟨_, _, _, rfl, rfl, rfl, rfl⟩ := h₂
    exact .parsed ht hd _ _ mem'

inductive DataRun (n : Nat) (info : DeviceInfo) :
    List MainEvent → Option (Int × DeviceInfo × Memory) → Prop
  | waiting {t : List MainEvent} (ht : ∀ e ∈ t, Downloading e.1) (ha : ¬ Answered n t) :
      DataRun n info t none
  | failed {t : List MainEvent} (ht : ∀ e ∈ t, Downloading e.1) (mem : Memory) :
      DataRun n info t (some (-1, info, mem))
  | verified {t : List MainEvent} (ht : ∀ e ∈ t, Downloading e.1) {size : Nat}
      (hd : Completed 0x40000000 t size info.tHash) (mem : Memory) :
      DataRun n info t
        (some (0, { info with pucWfpImage := 0x40000000, sizWfpImage := size }, mem))

theorem getDataFile_cases {plat : Platform} {mem : Memory} {info : DeviceInfo} {n : Nat}
    {t : List MainEvent} {r : Option (Int × DeviceInfo × Memory)}
    (h : Runs (getDataFile plat mem info n) t r) : DataRun n info t r := by
  simp only [getDataFile, runs_bind] at h
  obtain ⟨x, t₁, t₂, rfl, h₁, h₂⟩ := h
  have ht := (calls_httpDownload _ _ _ _ _ _).forall_mem h₁
  obtain ⟨rfl, ha⟩ | ⟨mem', rfl⟩ | ⟨mem', size, tMyHash, rfl, hd⟩ :=
    httpDownload_cases (by decide) h₁
  · obtain ⟨rfl, rfl⟩ := h₂
    rw [List.append_nil]
    exact .waiting ht ha
  · obtain ⟨rfl, rfl⟩ := h₂
    rw [List.append_nil]
    exact .failed ht mem'
  · by_cases hhash : tMyHash = info.tHash
    · subst hhash
      simp only [↓reduceIte, runs_pure] at h₂
      obtain ⟨rfl, rfl⟩ := h₂
      rw [List.append_nil]
      exact .verified ht hd mem'
    · simp only [hhash, ↓reduceIte, runs_pure] at h₂
      obtain ⟨rfl, rfl⟩ := h₂
      rw [List.append_nil]
      exact .failed ht mem'

theorem finish_cases {info : DeviceInfo} {iResult : Int} {pcErrorMessage : String}
    {ulDurationDownload ulDurationFlash : Nat} {code : BlinkCode} {t : List MainEvent}
    {r : Option Unit}
    (h : Runs (finish info iResult pcErrorMessage ulDurationDownload ulDurationFlash code) t r) :
    ∃ i, r = some () ∧ t = [messageEvent
      (resultMessage info iResult pcErrorMessage ulDurationDownload ulDurationFlash) i,
      blinkEvent code] := by
  simp only [finish, generateResultMessage, runs_bind, runs_perform, runs_pure] at h
  obtain ⟨_, _, _, rfl, ⟨i, _, _, rfl, rfl, rfl, -⟩, _, _, _, rfl, rfl, rfl, rfl⟩ := h
  exact ⟨i, rfl, rfl⟩

abbrev image (info : DeviceInfo) : WfpImage := ⟨info.pucWfpImage, info.sizWfpImage⟩

abbrev flashEvents (t : List FlashEvent) : List MainEvent := t.map (Event.embed MainCall.flash)

inductive FlashRun (plat : Platform) (mem : Memory) (info : DeviceInfo) (k : Nat) :
    List MainEvent → Option Unit → Prop
  | running (i : Int) (ulTime : Nat) {t : List FlashEvent}
      (ht : Runs (processWfp plat.api mem (image info) k) t none) :
      FlashRun plat mem info k
        (messageEvent (startMessage info .flashStart) i :: timeEvent ulTime ::
          noteEvent (.processWfp mem info.sizWfpImage) :: flashEvents t) none
  | done (i j l : Int) (ulTime ulTime' : Nat) {t : List FlashEvent} {iResult : Int}
      (ht : Runs (processWfp plat.api mem (image info) k) t (some iResult))
      (pcMessage : String) (ulDurationDownload ulDurationFlash : Nat) (code : BlinkCode) :
      FlashRun plat mem info k
        (messageEvent (startMessage info .flashStart) i :: timeEvent ulTime ::
          noteEvent (.processWfp mem info.sizWfpImage) :: flashEvents t ++
          [timeEvent ulTime', messageEvent (endMessage info .flashEnd iResult pcMessage
            ulDurationFlash) j, messageEvent (resultMessage info iResult pcMessage
            ulDurationDownload ulDurationFlash) l, blinkEvent code]) (some ())

theorem flashImage_cases {plat : Platform} {mem : Memory} {info : DeviceInfo}
    {ulDurationDownload k : Nat} {t : List MainEvent} {r : Option Unit}
    (h : Runs (flashImage plat mem info ulDurationDownload k) t r) :
    FlashRun plat mem info k t r := by
  simp only [flashImage, runs_bind, runs_perform, runs_generateStartMessage] at h
  obtain ⟨_, _, _, rfl, ⟨i, rfl⟩, ulTime, _, _, rfl, rfl, _, _, _, rfl, rfl,
    x, _, t₂, rfl, h₁, h₂⟩ := h
  obtain ⟨t, rfl, ht⟩ := runs_embed.mp h₁
  cases x with
  | none =>
    obtain ⟨rfl, rfl⟩ := h₂
    rw [List.append_nil]
    exact .running i ulTime ht
  | some iResult =>
    simp only [reportFlash, runs_bind, runs_duration] at h₂
    obtain ⟨_, _, _, rfl, ⟨ulTime', rfl, rfl⟩, h₂⟩ := h₂
    by_cases hok : iResult = 0
    · subst hok
      simp only [↓reduceIte, runs_bind, runs_generateEndMessage] at h₂
      obtain ⟨_, _, _, rfl, ⟨j, rfl⟩, h₂⟩ := h₂
      obtain ⟨l, rfl, rfl⟩ := finish_cases h₂
      exact .done i j l ulTime ulTime' ht "OK" _ _ .flashingOk
    · simp only [hok, ↓reduceIte, runs_bind, runs_generateEndMessage] at h₂
      obtain ⟨_, _, _, rfl, ⟨j, rfl⟩, h₂⟩ := h₂
      obtain ⟨l, rfl, rfl⟩ := finish_cases h₂
      have hend : ∀ m d, endMessage info .flashEnd (-1) m d = endMessage info .flashEnd iResult m d := by
        simp [endMessage, hok]
      rw [hend]
      exact .done i j l ulTime ulTime' ht "Failed to flash the SWFP." _ _ .flashingFailed

/-- The part of a run from the first message to the end of the downloads. -/
abbrev opening (info : DeviceInfo) (i : Int) (ulTime : Nat) (t : List MainEvent) : List MainEvent :=
  messageEvent (startMessage info .downloadStart) i :: timeEvent ulTime :: t

abbrev failureEvents (info : DeviceInfo) (iResult : Int) (pcMessage : String)
    (ulTime ulDuration : Nat) (code : BlinkCode) (i j : Int) : List MainEvent :=
  [timeEvent ulTime, messageEvent (endMessage info .downloadEnd (-1) pcMessage ulDuration) i,
    messageEvent (resultMessage info iResult pcMessage ulDuration 0) j, blinkEvent code]

/-- Everything that can happen from the first message on. -/
inductive StationRun (plat : Platform) (info : DeviceInfo) (n k : Nat) :
    List MainEvent → Option Unit → Prop
  | noInfo (i : Int) (ulTime : Nat) {t : List MainEvent} (ht : InfoRun n info t none) :
      StationRun plat info n k (opening info i ulTime t) none
  | infoFailed (i : Int) (ulTime : Nat) {t : List MainEvent} {iResult : Int} {info' : DeviceInfo}
      {mem : Memory} (ht : InfoRun n info t (some (iResult, info', mem))) (hi : iResult ≠ 0)
      (pcMessage : String) (ulTime' ulDuration : Nat) (code : BlinkCode) (j l : Int) :
      StationRun plat info n k (opening info i ulTime t ++
        failureEvents info' iResult pcMessage ulTime' ulDuration code j l) (some ())
  | noData (i : Int) (ulTime : Nat) {t u : List MainEvent} {info' : DeviceInfo}
      {mem : Memory} (ht : InfoRun n info t (some (0, info', mem))) (hu : DataRun n info' u none) :
      StationRun plat info n k (opening info i ulTime (t ++ u)) none
  | dataFailed (i : Int) (ulTime : Nat) {t u : List MainEvent} {iResult : Int}
      {info' info'' : DeviceInfo} {mem mem' : Memory} (ht : InfoRun n info t (some (0, info', mem)))
      (hu : DataRun n info' u (some (iResult, info'', mem'))) (hi : iResult ≠ 0)
      (pcMessage : String) (ulTime' ulDuration : Nat) (code : BlinkCode) (j l : Int) :
      StationRun plat info n k (opening info i ulTime (t ++ u) ++
        failureEvents info'' iResult pcMessage ulTime' ulDuration code j l) (some ())
  | flashed (i : Int) (ulTime : Nat) {t u v : List MainEvent} {info' info'' : DeviceInfo}
      {mem mem' : Memory} {r : Option Unit} (ht : InfoRun n info t (some (0, info', mem)))
      (hu : DataRun n info' u (some (0, info'', mem'))) (ulTime' ulDuration : Nat) (j : Int)
      (hv : FlashRun plat mem' info'' k v r) :
      StationRun plat info n k (opening info i ulTime (t ++ u) ++ timeEvent ulTime' ::
        messageEvent (endMessage info'' .downloadEnd 0 "OK" ulDuration) j :: v) r

theorem downloadFailed_cases {info : DeviceInfo} {iResult : Int} {pcErrorMessage : String}
    {ulTimeStart : Nat} {code : BlinkCode} {t : List MainEvent} {r : Option Unit}
    (h : Runs (downloadFailed info iResult pcErrorMessage ulTimeStart code) t r) :
    ∃ ulTime ulDuration i j, r = some () ∧
      t = failureEvents info iResult pcErrorMessage ulTime ulDuration code i j := by
  simp only [downloadFailed, runs_bind, runs_duration, runs_generateEndMessage] at h
  obtain ⟨_, _, _, rfl, ⟨ulTime, rfl, rfl⟩, _, _, _, rfl, ⟨i, rfl⟩, h⟩ := h
  obtain ⟨j, rfl, rfl⟩ := finish_cases h
  exact ⟨ulTime, _, i, j, rfl, rfl⟩

theorem station_cases {plat : Platform} {mem : Memory} {info : DeviceInfo} {n k : Nat}
    {t : List MainEvent} {r : Option Unit} (h : Runs (station plat mem info n k) t r) :
    StationRun plat info n k t r := by
  simp only [station, runs_bind, runs_perform, runs_generateStartMessage] at h
  obtain ⟨_, _, _, rfl, ⟨i, rfl⟩, ulTime, _, _, rfl, rfl, x, t₁, t₂, rfl, h₁, h₂⟩ := h
  have ht := getDeviceInfo_cases h₁
  obtain _ | ⟨iResult, info', mem'⟩ := x
  · obtain ⟨rfl, rfl⟩ := h₂
    rw [List.append_nil]
    exact .noInfo i ulTime ht
  by_cases hi : iResult = 0
  · subst hi
    simp only [ne_eq, not_true_eq_false, ↓reduceIte, processDataFile, runs_bind] at h₂
    obtain ⟨y, u, t₃, rfl, h₂, h₃⟩ := h₂
    have hu := getDataFile_cases h₂
    obtain _ | ⟨iResult, info'', mem''⟩ := y
    · obtain ⟨rfl, rfl⟩ := h₃
      rw [List.append_nil]
      have hrun : StationRun plat info n k _ none := .noData i ulTime ht hu
      exact hrun
    by_cases hi : iResult = 0
    · subst hi
      simp only [not_true_eq_false, ↓reduceIte, runs_bind, runs_duration,
        runs_generateEndMessage] at h₃
      obtain ⟨_, _, _, rfl, ⟨ulTime', rfl, rfl⟩, _, _, v, rfl, ⟨j, rfl⟩, hv⟩ := h₃
      have hrun := StationRun.flashed i ulTime ht hu ulTime' (sub32 ulTime' ulTime) j
        (flashImage_cases hv)
      rw [List.cons_append, List.cons_append, List.append_assoc] at hrun
      exact hrun
    · simp only [hi, not_false_eq_true, ↓reduceIte] at h₃
      obtain ⟨ulTime', ulDuration, j, l, rfl, rfl⟩ := downloadFailed_cases h₃
      have hrun : StationRun plat info n k _ (some ()) := .dataFailed i ulTime ht hu hi
        "Failed to download the SWFP." ulTime' ulDuration .downloadSwfpFailed j l
      rw [List.cons_append, List.cons_append, List.append_assoc] at hrun
      exact hrun
  · simp only [ne_eq, hi, not_false_eq_true, ↓reduceIte] at h₂
    obtain ⟨ulTime', ulDuration, j, l, rfl, rfl⟩ := downloadFailed_cases h₂
    exact .infoFailed i ulTime ht hi _ ulTime' ulDuration _ j l

theorem readFDL_reads {api : Headers} {crc : List UInt8 → Nat} {info : DeviceInfo}
    {t : List FlashEvent} {x : Int × DeviceInfo} (h : Runs (readFDL api crc info) t x) :
    ∀ e ∈ t, ¬ e.1.EraseOrProgram := by
  simp only [readFDL, runs_bind, runs_perform, Prod.exists] at h
  obtain ⟨tResult, _, _, _, rfl, rfl, h⟩ := h
  by_cases hr : tResult = .ok
  · simp only [hr, ↓reduceIte, runs_bind, runs_perform, Prod.exists] at h
    obtain ⟨tResult', _, _, _, rfl, rfl, h⟩ := h
    by_cases hr' : tResult' = .ok
    · simp only [hr', ↓reduceIte, runs_pure] at h
      obtain ⟨rfl, -⟩ := h
      simp [Call.EraseOrProgram]
    · simp only [hr', ↓reduceIte, runs_pure] at h
      obtain ⟨rfl, -⟩ := h
      simp [Call.EraseOrProgram]
  · simp only [hr, ↓reduceIte, runs_pure] at h
    obtain ⟨rfl, -⟩ := h
    simp [Call.EraseOrProgram]

abbrev startUpEvents (t : List FlashEvent) (iResult : Int) : List MainEvent :=
  ⟨.ackLastRomcodePacket, (0 : Int)⟩ :: flashEvents t ++ [noteEvent (.readFDL iResult)]

/-- Everything that `flashapp_main` can do. -/
inductive MainRun (plat : Platform) (n k : Nat) : List MainEvent → Option Unit → Prop
  | noAck (iResult : Int) (hi : iResult ≠ 0) (code : BlinkCode) :
      MainRun plat n k [⟨.ackLastRomcodePacket, iResult⟩, blinkEvent code] (some ())
  | noFdl {t : List FlashEvent} (ht : ∀ e ∈ t, ¬ e.1.EraseOrProgram) (iResult : Int)
      (hi : iResult ≠ 0) (code : BlinkCode) :
      MainRun plat n k (startUpEvents t iResult ++ [blinkEvent code]) (some ())
  | started {t : List FlashEvent} (ht : ∀ e ∈ t, ¬ e.1.EraseOrProgram) (info : DeviceInfo) (i : Int)
      {u : List MainEvent} {r : Option Unit} (hu : StationRun plat info n k u r) :
      MainRun plat n k (startUpEvents t 0 ++
        [⟨.setupHardware info.ulDeviceNr, ()⟩, ⟨.setupNetwork, i⟩] ++ u) r

theorem flashappMain_cases {plat : Platform} {mem : Memory} {n k : Nat} {t : List MainEvent}
    {r : Option Unit} (h : Runs (flashappMain plat mem n k) t r) : MainRun plat n k t r := by
  simp only [flashappMain, runs_bind, runs_perform] at h
  obtain ⟨iAck, _, _, rfl, rfl, h⟩ := h
  by_cases hack : iAck = 0
  · subst hack
    simp only [ne_eq, not_true_eq_false, ↓reduceIte, runs_bind, runs_perform, Prod.exists] at h
    obtain ⟨iResult, info, t₁, t₂, rfl, h₁, _, _, _, rfl, rfl, h⟩ := h
    obtain ⟨t, rfl, ht⟩ := runs_embed.mp h₁
    by_cases hi : iResult = 0
    · subst hi
      simp only [not_true_eq_false, ↓reduceIte, runs_bind, runs_perform] at h
      obtain ⟨_, _, _, rfl, rfl, i, _, u, rfl, rfl, hu⟩ := h
      have hrun := MainRun.started (readFDL_reads ht) info i (station_cases hu)
      rw [List.append_assoc, List.append_assoc] at hrun
      exact hrun
    · simp only [hi, not_false_eq_true, ↓reduceIte, runs_bind, runs_perform, runs_pure] at h
      obtain ⟨_, _, _, rfl, rfl, rfl, rfl⟩ := h
      have hrun : MainRun plat n k _ (some ()) :=
        .noFdl (readFDL_reads ht) iResult hi .fdlReadFailed
      rw [List.append_assoc] at hrun
      exact hrun
  · simp only [ne_eq, hack, not_false_eq_true, ↓reduceIte, runs_bind, runs_perform, runs_pure] at h
    obtain ⟨_, _, _, rfl, rfl, rfl, rfl⟩ := h
    exact .noAck iAck hack .romAckFailed

end FlashApp.MainRuns
